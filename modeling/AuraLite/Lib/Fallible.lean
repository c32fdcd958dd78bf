/-!
# Programs that fail and keep what they did

A program over a state that ends with a value or with an error.  An error does not undo
the changes made before it.  `Exits` states what holds at either end, with one rule for
each way to build a program.
-/

namespace AuraLite.Fallible

variable {ε σ α β : Type}

/-- A run from `s` returns within `done` or fails within `fails`. -/
def Exits (m : EStateM ε σ α) (s : σ) (done : α → σ → Prop) (fails : ε → σ → Prop) :
    Prop :=
  match m.run s with
  | .ok a s' => done a s'
  | .error e s' => fails e s'

variable {m : EStateM ε σ α} {s : σ} {done : α → σ → Prop} {fails : ε → σ → Prop}
variable {e : ε} {s' : σ} {holds : σ → Prop} {a : α}

section

variable (hexits : Exits m s done fails)
include hexits

theorem Exits.error (hrun : m.run s = .error e s') : fails e s' := by
  rw [Exits, hrun] at hexits
  exact hexits

theorem Exits.ok (hrun : m.run s = .ok a s') : done a s' := by
  rw [Exits, hrun] at hexits
  exact hexits

theorem Exits.weaken {done' : α → σ → Prop} {fails' : ε → σ → Prop}
    (hdone : ∀ a s', done a s' → done' a s') (hfails : ∀ e s', fails e s' → fails' e s') :
    Exits m s done' fails' := by
  rw [Exits] at *
  cases hrun : m.run s with
  | ok a s' =>
    rw [hrun] at hexits
    exact hdone a s' hexits
  | error e s' =>
    rw [hrun] at hexits
    exact hfails e s' hexits

theorem Exits.imp {done' : α → σ → Prop} (hdone : ∀ a s', done a s' → done' a s') :
    Exits m s done' fails :=
  hexits.weaken hdone fun _ _ h => h

end

theorem Exits.pure (hdone : done a s) : Exits (Pure.pure a) s done fails := hdone

theorem Exits.throw (hfails : fails e s) : Exits (throw e) s done fails := hfails

theorem Exits.modifyGet {f : σ → α × σ} (hdone : done (f s).1 (f s).2) :
    Exits (modifyGet f) s done fails :=
  hdone

/-- The second program starts where the first returned. -/
theorem Exits.bind {next : α → EStateM ε σ β} {after : β → σ → Prop} (hfirst : Exits m s done fails)
    (hnext : ∀ a s', done a s' → Exits (next a) s' after fails) :
    Exits (m >>= next) s after fails := by
  cases hrun : m s with
  | ok a s' =>
    have hbind : (m >>= next).run s = (next a).run s' := by
      change EStateM.bind m next s = next a s'
      rw [EStateM.bind, hrun]
    have hdone : done a s' := by
      rw [Exits, EStateM.run, hrun] at hfirst
      exact hfirst
    rw [Exits, hbind]
    exact hnext a s' hdone
  | error e s' =>
    have hbind : (m >>= next).run s = .error e s' := by
      change EStateM.bind m next s = _
      rw [EStateM.bind, hrun]
    have hfails : fails e s' := by
      rw [Exits, EStateM.run, hrun] at hfirst
      exact hfirst
    rw [Exits, hbind]
    exact hfails

/-- The same with a weaker statement of how the first program fails. -/
theorem Exits.seq {fails' : ε → σ → Prop} {next : α → EStateM ε σ β} {after : β → σ → Prop}
    (hfirst : Exits m s done fails) (hfails : ∀ e s', fails e s' → fails' e s')
    (hnext : ∀ a s', done a s' → Exits (next a) s' after fails') :
    Exits (m >>= next) s after fails' :=
  (hfirst.weaken (fun _ _ h => h) hfails).bind hnext

theorem Exits.get_bind {next : σ → EStateM ε σ β} {after : β → σ → Prop}
    (hnext : Exits (next s) s after fails) : Exits (get >>= next) s after fails :=
  hnext

theorem Exits.modify_bind {f : σ → σ} {next : Unit → EStateM ε σ β}
    {after : β → σ → Prop} (hnext : Exits (next ()) (f s) after fails) :
    Exits ((modify f : EStateM ε σ Unit) >>= next) s after fails :=
  hnext

theorem Exits.modify {f : σ → σ} {done : Unit → σ → Prop} (hdone : done () (f s)) :
    Exits (modify f) s done fails :=
  hdone

theorem Exits.ite {cond : Prop} [Decidable cond] {m' : EStateM ε σ α}
    (hthen : cond → Exits m s done fails) (helse : ¬ cond → Exits m' s done fails) :
    Exits (if cond then m else m') s done fails := by
  split
  · rename_i h
    exact hthen h
  · rename_i h
    exact helse h

/-- A check at which the program may fail. -/
theorem Exits.unless {cond : Prop} [Decidable cond] (hfails : fails e s)
    (hrest : ¬ cond → Exits m s done fails) :
    Exits (if cond then MonadExcept.throw e else m) s done fails :=
  .ite (fun _ => hfails) hrest

/-- A loop keeps what each turn keeps. -/
theorem Exits.forM {inv : σ → Prop} {f : β → EStateM ε σ Unit} (l : List β)
    (hturn : ∀ b ∈ l, ∀ s, inv s → Exits (f b) s (fun _ s' => inv s') fails)
    (hinv : inv s) : Exits (l.forM f) s (fun _ s' => inv s') fails := by
  induction l generalizing s with
  | nil => exact hinv
  | cons b l ih =>
    refine .bind (hturn b List.mem_cons_self s hinv) fun _ s' hinv' => ?_
    exact ih (fun b' hb' => hturn b' (List.mem_cons_of_mem b hb')) hinv'

/-- The state a run leaves, either way. -/
def after (m : EStateM ε σ α) (s : σ) : σ :=
  match m.run s with
  | .ok _ s' => s'
  | .error _ s' => s'

/-- A run from `s` ends within `holds`, either way. -/
abbrev Leaves (m : EStateM ε σ α) (s : σ) (holds : σ → Prop) : Prop :=
  Exits m s (fun _ s' => holds s') fun _ s' => holds s'

theorem Leaves.imp {holds' : σ → Prop} (h : Leaves m s holds) (himp : ∀ s', holds s' → holds' s') :
    Leaves m s holds' :=
  h.weaken (fun _ => himp) fun _ => himp

/-- A failure without a trace. -/
theorem Exits.leaves (hexits : Exits m s done fun _ s' => s' = s) (hsame : holds s)
    (hdone : ∀ a s', done a s' → holds s') : Leaves m s holds := by
  apply hexits.weaken hdone
  rintro _ s' rfl
  exact hsame

theorem Exits.after (hexits : Leaves m s holds) : holds (after m s) := by
  rw [Leaves, Exits] at hexits
  rw [Fallible.after]
  cases hrun : m.run s with
  | _ =>
    rw [hrun] at hexits
    exact hexits

end AuraLite.Fallible
