import AuraLite.Lib.RefCount

/-!
# The user half of an address space

Four levels of page tables.  A table is its own frame and its slots, an absent
entry is an entry without the present bit, and the leaves are page-table
entries.  What the walks of `paging.c` do at one level they do at every level,
so a `Level` collects how entries of one level are read, changed and counted,
and a table of a lawful level is a lawful level again.
-/

namespace AuraLite.Paging

open List Option

/-- A present page-table entry: its frame and the flags the kernel looks at. -/
structure Pte where
  frame : ℕ
  writable : Bool
  user : Bool
  cow : Bool
  deriving DecidableEq

structure Table (Entry : Type) where
  frame : ℕ
  slots : List (Option Entry)

abbrev PageTable := Table Pte
abbrev PageDir := Table PageTable
abbrev Pdpt := Table PageDir

/-- The user half of a PML4. -/
abbrev Pml4 := Table Pdpt

/-- How the entries of one level are walked.  An entry covers `span` pages,
numbered from `0`. -/
structure Level (Entry : Type) where
  span : ℕ
  /-- The leaf that maps a page. -/
  find : Entry → ℕ → Option Pte
  /-- The entry with the leaf of a page replaced. -/
  set : Entry → ℕ → Pte → Entry
  /-- The frames of the user leaves. -/
  leaves : Entry → List ℕ
  /-- The frames of the tables. -/
  tables : Entry → List ℕ
  /-- All frames in the order in which a walk releases them. -/
  frames : Entry → List ℕ

/-- The frames of one leaf: only user pages are owned by the address space. -/
def Pte.frames (e : Pte) : List ℕ := if e.user then [e.frame] else []

def pteLevel : Level Pte where
  span := 1
  find e _ := some e
  set _ _ e' := e'
  leaves := Pte.frames
  tables _ := []
  frames := Pte.frames

/-- Collect the frames of the present entries. -/
def Table.collect {Entry : Type} (frames : Entry → List ℕ) (slots : List (Option Entry)) :
    List ℕ :=
  slots.flatMap fun slot => (slot.map frames).getD []

def tableLevel {Entry : Type} (level : Level Entry) : Level (Table Entry) where
  span := 512 * level.span
  find t page := (t.slots.getD (page / level.span) none).bind fun e =>
    level.find e (page % level.span)
  set t page e' := { t with
    slots := t.slots.modify (page / level.span) (Option.map fun e =>
      level.set e (page % level.span) e') }
  leaves t := Table.collect level.leaves t.slots
  tables t := Table.collect level.tables t.slots ++ [t.frame]
  frames t := Table.collect level.frames t.slots ++ [t.frame]

def rootLevel : Level Pml4 :=
  tableLevel (tableLevel (tableLevel (tableLevel pteLevel)))

/-- What the proofs use of a level. -/
structure Level.Lawful {Entry : Type} (level : Level Entry) : Prop where
  span_pos : 0 < level.span
  leaf_mem : ∀ {e page x}, level.find e page = some x → x.user = true →
    x.frame ∈ level.leaves e
  /-- Two user leaves on one frame are counted twice. -/
  leaf_pair : ∀ {e page page' x x'}, page < level.span → page' < level.span →
    page ≠ page' → level.find e page = some x → level.find e page' = some x' →
    x.user = true → x'.user = true → x.frame = x'.frame →
    2 ≤ (level.leaves e).count x.frame
  find_set : ∀ {e page x}, level.find e page = some x → ∀ x' page',
    page < level.span → page' < level.span →
    level.find (level.set e page x') page' =
      if page' = page then some x' else level.find e page'
  leaves_set : ∀ {e page x}, level.find e page = some x → ∀ x' f,
    (level.leaves (level.set e page x')).count f + x.frames.count f =
      (level.leaves e).count f + x'.frames.count f
  tables_set : ∀ e page x', level.tables (level.set e page x') = level.tables e
  frames_count : ∀ e f, (level.frames e).count f =
    (level.leaves e).count f + (level.tables e).count f

theorem pteLevel_lawful : pteLevel.Lawful where
  span_pos := Nat.one_pos
  leaf_mem := by
    rintro e page x hfind huser
    cases hfind
    simp [pteLevel, Pte.frames, huser]
  leaf_pair := by
    intro e page page' x x' hpage hpage' hne
    simp only [pteLevel] at hpage hpage'
    omega
  find_set := by
    intro e page x hfind x' page' hpage hpage'
    simp only [pteLevel] at hpage hpage' ⊢
    rw [if_pos (by omega)]
  leaves_set := by
    intro e page x hfind x' f
    cases hfind
    exact Nat.add_comm _ _
  tables_set _ _ _ := rfl
  frames_count _ _ := rfl

/-! ## One table -/

section Collect

variable {Entry : Type} {frames : Entry → List ℕ} {slots : List (Option Entry)}
variable {e e' : Entry} {i j : ℕ}

@[simp]
theorem collect_cons (slot : Option Entry) (slots : List (Option Entry)) :
    Table.collect frames (slot :: slots) =
      (slot.map frames).getD [] ++ Table.collect frames slots :=
  flatMap_cons

section

variable (hi : slots.getD i none = some e)
include hi

theorem getElem?_of_getD : slots[i]? = some (some e) := by
  rw [getD_eq_getElem?_getD, Option.getD_eq_iff] at hi
  exact hi.resolve_right nofun

theorem getD_set (slot : Option Entry) :
    (slots.set i slot).getD j none = if j = i then slot else slots.getD j none := by
  obtain ⟨hlt, -⟩ := List.getElem?_eq_some_iff.mp (getElem?_of_getD hi)
  simp only [getD_eq_getElem?_getD, getElem?_set, if_pos hlt, @eq_comm _ i]
  split_ifs <;> rfl

theorem collect_set (f : ℕ) (slot : Option Entry) :
    (Table.collect frames (slots.set i slot)).count f + (frames e).count f =
      (Table.collect frames slots).count f + ((slot.map frames).getD []).count f :=
  RefCount.count_flatMap_set _ (getElem?_of_getD hi) f

theorem collect_set_none (f : ℕ) :
    (Table.collect frames (slots.set i none)).count f + (frames e).count f =
      (Table.collect frames slots).count f :=
  collect_set hi f none

end

theorem count_le_collect (f : ℕ) (hslot : slots.getD i none = some e) :
    (frames e).count f ≤ (Table.collect frames slots).count f :=
  Nat.le_of_add_left_le (Nat.le_of_eq (collect_set_none hslot f))

theorem count_pair_le_collect (f : ℕ) (hij : i ≠ j)
    (hi : slots.getD i none = some e) (hj : slots.getD j none = some e') :
    (frames e).count f + (frames e').count f ≤ (Table.collect frames slots).count f := by
  have hrest : (slots.set i none).getD j none = some e' := by
    rw [getD_set hi, if_neg hij.symm, hj]
  have hle := @count_le_collect _ frames _ _ _ f hrest
  have hcount := @collect_set_none _ frames _ _ _ hi f
  omega

variable {g : Entry → Entry}

theorem modify_eq_set (hi : slots.getD i none = some e) :
    slots.modify i (Option.map g) = slots.set i (some (g e)) := by
  rw [modify_eq_set_getElem?, getElem?_of_getD hi]
  rfl

theorem getD_modify (hi : slots.getD i none = some e) :
    (slots.modify i (Option.map g)).getD j none =
      if j = i then some (g e) else slots.getD j none := by
  rw [modify_eq_set hi, getD_set hi]

theorem collect_modify (f : ℕ) (hi : slots.getD i none = some e) :
    (Table.collect frames (slots.modify i (Option.map g))).count f + (frames e).count f =
      (Table.collect frames slots).count f + (frames (g e)).count f := by
  rw [modify_eq_set hi]
  exact collect_set hi f (some (g e))

theorem collect_modify_same (hsame : ∀ e, frames (g e) = frames e) (i : ℕ) :
    Table.collect frames (slots.modify i (Option.map g)) = Table.collect frames slots := by
  induction slots generalizing i with
  | nil => simp
  | cons slot slots ih =>
    cases i with
    | zero =>
      rw [modify_zero_cons, collect_cons, collect_cons]
      cases slot with
      | none => rfl
      | some e => rw [map_some, map_some, map_some, hsame]
    | succ i => rw [modify_succ_cons, collect_cons, collect_cons, ih]

theorem getD_concat (slots : List (Option Entry)) (slot : Option Entry) (j : ℕ) :
    (slots ++ [slot]).getD j none =
      if j = slots.length then slot else slots.getD j none := by
  simp only [getD_eq_getElem?_getD]
  grind

theorem count_collect_concat (slots : List (Option Entry)) (e : Entry) (f : ℕ) :
    (Table.collect frames (slots ++ [some e])).count f =
      (Table.collect frames slots).count f + (frames e).count f := by
  simp [Table.collect, flatMap_append, count_append]

theorem collect_count_add {left right : Entry → List ℕ} (f : ℕ)
    (hsum : ∀ e, (frames e).count f = (left e).count f + (right e).count f) :
    (Table.collect frames slots).count f =
      (Table.collect left slots).count f + (Table.collect right slots).count f := by
  induction slots with
  | nil => rfl
  | cons slot slots ih =>
    simp only [collect_cons, count_append, ih]
    cases slot with
    | none => simp
    | some e =>
      simp only [map_some, getD_some, hsum e]
      omega

end Collect

theorem tableLevel_lawful {Entry : Type} {level : Level Entry}
    (hlaws : level.Lawful) : (tableLevel level).Lawful where
  span_pos := Nat.mul_pos (by decide) hlaws.span_pos
  leaf_mem := by
    intro t page x hfind huser
    obtain ⟨e, hslot, hleaf⟩ := Option.bind_eq_some_iff.mp hfind
    have hmem := hlaws.leaf_mem hleaf huser
    rw [← count_pos_iff] at hmem ⊢
    exact hmem.trans_le (count_le_collect x.frame hslot)
  leaf_pair := by
    intro t page page' x x' _ _ hne hfind hfind' huser huser' hframe
    obtain ⟨e, hslot, hleaf⟩ := Option.bind_eq_some_iff.mp hfind
    obtain ⟨e', hslot', hleaf'⟩ := Option.bind_eq_some_iff.mp hfind'
    by_cases hindex : page / level.span = page' / level.span
    · rw [hindex, hslot', Option.some.injEq] at hslot
      subst hslot
      have hrest : page % level.span ≠ page' % level.span := fun hmod =>
        hne (Nat.ext_div_mod hindex hmod)
      have htwo := hlaws.leaf_pair (Nat.mod_lt _ hlaws.span_pos)
        (Nat.mod_lt _ hlaws.span_pos) hrest hleaf hleaf' huser huser' hframe
      exact htwo.trans (count_le_collect x.frame hslot')
    · have hone := List.count_pos_iff.mpr (hlaws.leaf_mem hleaf huser)
      have hone' := List.count_pos_iff.mpr (hlaws.leaf_mem hleaf' huser')
      rw [← hframe] at hone'
      exact (Nat.add_le_add hone hone').trans (count_pair_le_collect x.frame hindex hslot hslot')
  find_set := by
    intro t page x hfind x' page' _ _
    obtain ⟨e, hslot, hleaf⟩ := Option.bind_eq_some_iff.mp hfind
    have hget := @getD_modify _ _ _ _ (page' / level.span)
      (fun e => level.set e (page % level.span) x') hslot
    simp only [tableLevel] at hget ⊢
    rw [hget]
    split
    · rename_i hindex
      rw [bind_some, hlaws.find_set hleaf x' _ (Nat.mod_lt _ hlaws.span_pos) (Nat.mod_lt _ hlaws.span_pos), hindex, hslot, bind_some]
      have hsame : page' % level.span = page % level.span ↔ page' = page :=
        ⟨Nat.ext_div_mod hindex, fun heq => by rw [heq]⟩
      simp only [hsame]
    · rename_i hindex
      rw [if_neg fun heq => hindex (by rw [heq])]
  leaves_set := by
    intro t page x hfind x' f
    obtain ⟨e, hslot, hleaf⟩ := Option.bind_eq_some_iff.mp hfind
    have hentry := hlaws.leaves_set hleaf x' f
    have htable := @collect_modify _ level.leaves _ _ _
      (fun e => level.set e (page % level.span) x') f hslot
    simp only [tableLevel] at htable ⊢
    omega
  tables_set := by
    intro t page x'
    simp only [tableLevel]
    rw [collect_modify_same fun e => hlaws.tables_set e _ x']
  frames_count := by
    intro t f
    simp only [tableLevel, count_append]
    rw [collect_count_add f fun e => hlaws.frames_count e f, Nat.add_assoc]

theorem rootLevel_lawful : rootLevel.Lawful :=
  tableLevel_lawful (tableLevel_lawful (tableLevel_lawful (tableLevel_lawful pteLevel_lawful)))

end AuraLite.Paging
