import AuraLite.Fs.Path

/-!
# Expansion of symbolic links

The links of a path are replaced one after the other, each by its target as it was given.  A
relative target that is too long behind the directory of its link is cut by
`symlink_target_to_absolute`.
-/

namespace AuraLite.Vfs

open List Option SlashPath

/-- The complete target of a link, from the root. -/
def completeTarget (linkpath target : Name) : Name :=
  if target.head? = some '/' then target
  else
    match dirName linkpath with
    | none | some [] => linkpath.take 1 ++ target
    | some parent => parent ++ '/' :: target

/-- The path with its first `i` components replaced. -/
def replaced (cs : List Name) (i : ℕ) (link : Link) : Name :=
  completeTarget (render (cs.take i)) link.target ++ joined (cs.drop i)

/-- A path without links after `n` replacements. -/
inductive Expands (links : List Link) : ℕ → List Name → List Name → Prop
  | done {cs} (hfirst : firstLink links cs = none) : Expands links 0 cs cs
  | step {n cs next ds i link} (hfirst : firstLink links cs = some (i, link))
      (hfits : (replaced cs i link).length < pathMax)
      (hnext : canonicalPath pathMax (replaced cs i link) = some next)
      (hrest : Expands links n next ds) : Expands links (n + 1) cs ds

/-- `resolve_path_follow` up to the lookup. -/
def resolvePathFollow (links : List Link) (depth : ℕ) (cwd path : Name) : Option (List Name) :=
  ((anchorPath cwd path).bind (canonicalPath pathMax)).bind fun cs =>
    if symlinkMaxFollow < depth then none else walk links (symlinkMaxFollow - depth) cs

/-- The walk goes on only with targets that are not cut. -/
def Uncut (links : List Link) : ℕ → List Name → Prop
  | budget, cs =>
    match firstLink links cs with
    | none => True
    | some (i, link) =>
      match budget with
      | 0 => True
      | budget + 1 =>
        let target := symlinkTargetToAbsolute (render (cs.take i)) link.target
        (target.length + (joined (cs.drop i)).length < pathMax →
          target = completeTarget (render (cs.take i)) link.target) ∧
        ∀ next ∈ expandLink cs i link, Uncut links budget next

/-- A link that is the whole path has a target that fits. -/
def TargetsFit (links : List Link) : ℕ → List Name → Prop
  | budget, cs =>
    match firstLink links cs with
    | none => True
    | some (i, link) =>
      match budget with
      | 0 => True
      | budget + 1 =>
        (joined (cs.drop i) = [] →
          (completeTarget (render (cs.take i)) link.target).length < pathMax) ∧
        ∀ next, (replaced cs i link).length < pathMax →
          canonicalPath pathMax (replaced cs i link) = some next → TargetsFit links budget next

variable {links : List Link} {cs ds : List Name} {i budget : ℕ} {link : Link}
  {linkpath target : Name}

theorem symlinkTargetToAbsolute_eq (linkpath target : Name) :
    symlinkTargetToAbsolute linkpath target =
      (completeTarget linkpath target).take (pathMax - 1) := by
  rw [symlinkTargetToAbsolute, completeTarget]
  split_ifs
  · rfl
  · cases dirName linkpath with
    | none => rfl
    | some parent => cases parent <;> rfl

/-- The cut is noticed unless nothing stands behind the link. -/
theorem uncut_iff (rest : Name) :
    ((symlinkTargetToAbsolute linkpath target).length + rest.length < pathMax →
      symlinkTargetToAbsolute linkpath target = completeTarget linkpath target) ↔
    (rest = [] → (completeTarget linkpath target).length < pathMax) := by
  have hwhole : (completeTarget linkpath target).take (pathMax - 1) =
      completeTarget linkpath target ↔ (completeTarget linkpath target).length ≤ pathMax - 1 := by
    constructor
    · intro htake
      rw [← htake]
      exact length_take_le _ _
    · exact take_of_length_le
  rw [symlinkTargetToAbsolute_eq, hwhole, length_take, ← length_eq_zero_iff]
  simp only [pathMax]
  omega

section

variable (hfits : joined (cs.drop i) = [] →
  (completeTarget (render (cs.take i)) link.target).length < pathMax)
include hfits

theorem expandLink_eq :
    expandLink cs i link = if (replaced cs i link).length < pathMax then
      canonicalPath pathMax (replaced cs i link) else none := by
  rw [replaced, expandLink, symlinkTargetToAbsolute_eq]
  by_cases hshort : (completeTarget (render (cs.take i)) link.target).length < pathMax
  · have hwhole := take_of_length_le (Nat.le_pred_of_lt hshort)
    rw [Nat.pred_eq_sub_one] at hwhole
    rw [hwhole]
  · have hrest : joined (cs.drop i) ≠ [] := fun hnil => hshort (hfits hnil)
    have hpos := length_pos_of_ne_nil hrest
    rw [if_neg, if_neg]
    all_goals simp only [length_append, length_take, pathMax] at hshort ⊢
    all_goals omega

theorem mem_expandLink {next : List Name} :
    next ∈ expandLink cs i link ↔ (replaced cs i link).length < pathMax ∧
      canonicalPath pathMax (replaced cs i link) = some next := by
  rw [expandLink_eq hfits, Option.mem_def, Option.ite_none_right_eq_some]

end

theorem uncut_iff_targetsFit : Uncut links budget cs ↔ TargetsFit links budget cs := by
  induction budget generalizing cs with
  | zero => rw [Uncut, TargetsFit]
  | succ budget ih =>
    rw [Uncut, TargetsFit]
    cases firstLink links cs with
    | none => exact .rfl
    | some found =>
      refine (and_congr_left fun _ => uncut_iff _).trans (and_congr_right fun hfits => ?_)
      simp only [mem_expandLink hfits, ih, and_imp]

theorem expands_iff_of_none (hfirst : firstLink links cs = none) :
    some cs = some ds ↔ ∃ n ≤ budget, Expands links n cs ds := by
  constructor
  · rintro ⟨⟩
    exact ⟨0, Nat.zero_le _, .done hfirst⟩
  · rintro ⟨n, _, hexpands⟩
    cases hexpands with
    | done => rfl
    | step hsome =>
      rw [hfirst] at hsome
      cases hsome

/-- As long as the targets fit, the walk gives the path without links that is at most `budget`
replacements away. -/
theorem walk_eq_some_iff (hfit : TargetsFit links budget cs) :
    walk links budget cs = some ds ↔ ∃ n ≤ budget, Expands links n cs ds := by
  induction budget generalizing cs with
  | zero =>
    rw [walk]
    cases hfirst : firstLink links cs with
    | none => exact expands_iff_of_none hfirst
    | some found =>
      refine iff_of_false (by simp) ?_
      rintro ⟨n, hn, hexpands⟩
      obtain rfl := Nat.le_zero.1 hn
      cases hexpands with
      | done hnone =>
        rw [hfirst] at hnone
        cases hnone
  | succ budget ih =>
    rw [walk]
    rw [TargetsFit] at hfit
    cases hfirst : firstLink links cs with
    | none => exact expands_iff_of_none hfirst
    | some found =>
      obtain ⟨i, link⟩ := found
      simp only [hfirst] at hfit
      refine Option.bind_eq_some_iff.trans ?_
      constructor
      · rintro ⟨next, hexpand, hwalk⟩
        obtain ⟨hfits, hnext⟩ := (mem_expandLink hfit.1).1 hexpand
        obtain ⟨n, hn, hexpands⟩ := (ih (hfit.2 next hfits hnext)).1 hwalk
        exact ⟨n + 1, Nat.succ_le_succ hn, .step hfirst hfits hnext hexpands⟩
      · rintro ⟨n, hn, hexpands⟩
        cases hexpands with
        | done hnone =>
          rw [hfirst] at hnone
          cases hnone
        | @step m _ next _ _ _ hsome hfits hnext hrest =>
          rw [hfirst] at hsome
          cases hsome
          exact ⟨next, (mem_expandLink hfit.1).2 ⟨hfits, hnext⟩,
            (ih (hfit.2 next hfits hnext)).2 ⟨m, Nat.le_of_succ_le_succ hn, hrest⟩⟩

/-- `resolve_path_follow` and `vfs_realpath` come to the same path, and that is the path of
complete targets exactly if no target is cut on the way. -/
theorem realpath_exact_iff (links : List Link) (cwd path : Name) :
    resolvePathFollow links 0 cwd path = realpath links cwd path ∧
    ((anchorPath cwd path).bind (canonicalPath pathMax) = none → realpath links cwd path = none) ∧
    ∀ cs, (anchorPath cwd path).bind (canonicalPath pathMax) = some cs →
      (Uncut links symlinkMaxFollow cs ∧
        (∀ ds, realpath links cwd path = some ds ↔
          ∃ n ≤ symlinkMaxFollow, Expands links n cs ds) ↔
      TargetsFit links symlinkMaxFollow cs) := by
  refine ⟨rfl, fun hnone => by rw [realpath, hnone]; rfl, fun cs hstart => ?_⟩
  have hwalk : realpath links cwd path = walk links symlinkMaxFollow cs := by
    rw [realpath, hstart, bind_some]
  rw [uncut_iff_targetsFit, hwalk]
  exact and_iff_left_of_imp fun hfit ds => walk_eq_some_iff hfit

/-- A link in a directory with a long name. -/
def deepLink : Link := ⟨'/' :: replicate 200 'd' ++ "/l".toList, replicate 60 't'⟩

/-- The relative target of 60 bytes does not fit; it is cut to 53, and the walk goes on. -/
theorem realpath_cuts_target :
    pathMax ≤ (completeTarget deepLink.path deepLink.target).length ∧
    realpath [deepLink] [] deepLink.path = some [replicate 200 'd', replicate 53 't'] := by
  decide +kernel

end AuraLite.Vfs
