import AuraLite.Lib.SlashPath
import Mathlib.Data.List.Basic

/-!
# Path resolution

The strings of the VFS: the lexical canonical form, the registry of symbolic links with
the walk that expands the leftmost linked prefix, and the mount table with its longest
match.  A canonical path is kept as the list of its components.
-/

namespace AuraLite.Vfs

open List Option SlashPath

/-- `VFS_PATH_MAX`. -/
def pathMax : ℕ := 256

/-! ## The canonical form -/

/-- One component in `vfs_canonical_path` and `exec_path_canonical`. -/
def canonicalStep (limit : ℕ) (cs : List Name) (c : Name) : Option (List Name) :=
  if c = ['.'] then some cs
  else if c = ['.', '.'] then some cs.dropLast
  else if (render (cs ++ [c])).length < limit then some (cs ++ [c])
  else none

/-- `vfs_canonical_path`, and `exec_path_canonical` with the same rules. -/
def canonicalPath (limit : ℕ) (path : Name) : Option (List Name) :=
  if path.head? = some '/' then (components path).foldlM (canonicalStep limit) []
  else none

def Canonical (cs : List Name) : Prop := Plain cs ∧ ['.'] ∉ cs ∧ ['.', '.'] ∉ cs

variable {limit : ℕ} {cs ds : List Name} {c path : Name}

theorem Canonical.nil : Canonical [] := ⟨fun _ hc => (nomatch hc), not_mem_nil, not_mem_nil⟩

theorem Canonical.of_subset (hcs : Canonical cs) (hsub : ∀ c ∈ ds, c ∈ cs) : Canonical ds :=
  ⟨fun c hc => hcs.1 c (hsub c hc), fun h => hcs.2.1 (hsub _ h), fun h => hcs.2.2 (hsub _ h)⟩

theorem render_le_concat (ds : List Name) (c : Name) :
    (render ds).length ≤ (render (ds ++ [c])).length := by
  rw [render_concat, length_append, length_cons, render]
  split_ifs
  · exact Nat.le_add_left_of_le (Nat.le_add_left 1 _)
  · exact Nat.le_add_right _ _

theorem render_dropLast_le (cs : List Name) : (render cs.dropLast).length ≤ (render cs).length := by
  by_cases hempty : cs = []
  · rw [hempty]
    exact Nat.le_refl _
  · calc (render cs.dropLast).length
        ≤ (render (cs.dropLast ++ [cs.getLast hempty])).length := render_le_concat _ _
      _ = (render cs).length := by rw [dropLast_concat_getLast hempty]

theorem canonicalStep_spec {cs' : List Name} (hcs : Canonical cs)
    (hlimit : (render cs).length < limit) (hc : c ≠ [] ∧ '/' ∉ c)
    (hstep : canonicalStep limit cs c = some cs') :
    Canonical cs' ∧ (render cs').length < limit := by
  rw [canonicalStep] at hstep
  split_ifs at hstep with hdot hdots hfits
  · cases hstep
    exact ⟨hcs, hlimit⟩
  · cases hstep
    exact ⟨hcs.of_subset fun _ hd => dropLast_subset cs hd,
      Nat.lt_of_le_of_lt (render_dropLast_le cs) hlimit⟩
  · cases hstep
    refine ⟨⟨hcs.1.append ?_, ?_, ?_⟩, hfits⟩
    · intro d hd
      rw [mem_singleton.mp hd]
      exact hc
    · rw [mem_append, mem_singleton, not_or]
      exact ⟨hcs.2.1, fun h => hdot h.symm⟩
    · rw [mem_append, mem_singleton, not_or]
      exact ⟨hcs.2.2, fun h => hdots h.symm⟩

theorem foldlM_canonicalStep {cs' rest : List Name} (hcs : Canonical cs)
    (hlimit : (render cs).length < limit) (hrest : Plain rest)
    (hfold : rest.foldlM (canonicalStep limit) cs = some cs') :
    Canonical cs' ∧ (render cs').length < limit := by
  induction rest generalizing cs with
  | nil =>
    cases hfold
    exact ⟨hcs, hlimit⟩
  | cons c rest ih =>
    rw [foldlM_cons] at hfold
    obtain ⟨next, hstep, hnext⟩ := Option.bind_eq_some_iff.mp hfold
    obtain ⟨hcanonical, hfits⟩ := canonicalStep_spec hcs hlimit (hrest c mem_cons_self) hstep
    exact ih hcanonical hfits (fun d hd => hrest d (mem_cons_of_mem c hd)) hnext

/-- A canonical path fits its buffer and has only proper components. -/
theorem canonicalPath_spec (hlimit : 1 < limit) (hpath : canonicalPath limit path = some cs) :
    Canonical cs ∧ (render cs).length < limit := by
  rw [canonicalPath] at hpath
  split_ifs at hpath
  exact foldlM_canonicalStep .nil hlimit (plain_components path) hpath

theorem foldlM_canonicalStep_self (hcs : Canonical (ds ++ cs))
    (hfits : (render (ds ++ cs)).length < limit) :
    cs.foldlM (canonicalStep limit) ds = some (ds ++ cs) := by
  induction cs generalizing ds with
  | nil =>
    rw [append_nil]
    rfl
  | cons c rest ih =>
    have hmem : c ∈ ds ++ c :: rest := mem_append_right _ mem_cons_self
    have hshape : ds ++ c :: rest = ds ++ [c] ++ rest := by simp
    have hshorter : (render (ds ++ [c])).length ≤ (render (ds ++ c :: rest)).length := by
      have hne : ds ++ [c] ++ rest ≠ [] := by simp
      rw [hshape, render, render, if_neg (by simp), if_neg hne, joined_append (ds ++ [c])]
      simp
    have hdot : c ≠ ['.'] := fun h => hcs.2.1 (h ▸ hmem)
    have hdots : c ≠ ['.', '.'] := fun h => hcs.2.2 (h ▸ hmem)
    have hstep : canonicalStep limit ds c = some (ds ++ [c]) := by
      rw [canonicalStep, if_neg hdot, if_neg hdots, if_pos (Nat.lt_of_le_of_lt hshorter hfits)]
    rw [foldlM_cons, hstep, hshape]
    rw [hshape] at hcs hfits
    exact ih hcs hfits

theorem canonicalPath_render (hcs : Canonical cs) (hfits : (render cs).length < limit) :
    canonicalPath limit (render cs) = some cs := by
  rw [canonicalPath, if_pos (render_head cs), components_render hcs.1]
  exact foldlM_canonicalStep_self hcs hfits

/-! ## Symbolic links -/

/-- A slot of the registry in `symlink.c`. -/
structure Link where
  path : Name
  target : Name
deriving DecidableEq

/-- `find_symlink` with the target it leads to. -/
def findSymlink (links : List Link) (path : Name) : Option Link :=
  links.find? (·.path = path)

def symlinkTargetToAbsolute (linkpath target : Name) : Name :=
  if target.head? = some '/' then target.take (pathMax - 1)
  else
    match dirName linkpath with
    | none | some [] => (linkpath.take 1 ++ target).take (pathMax - 1)
    | some parent => (parent ++ '/' :: target).take (pathMax - 1)

/-- The leftmost prefix that is a link: its length in components, and the link. -/
def firstLink (links : List Link) (cs : List Name) : Option (ℕ × Link) :=
  (range cs.length).findSome? fun i =>
    (findSymlink links (render (cs.take (i + 1)))).map fun link => (i + 1, link)

/-- The expansion of a linked prefix, with the rest of the path behind it. -/
def expandLink (cs : List Name) (i : ℕ) (link : Link) : Option (List Name) :=
  let next := symlinkTargetToAbsolute (render (cs.take i)) link.target ++ joined (cs.drop i)
  if next.length < pathMax then canonicalPath pathMax next else none

/-- The loop of `resolve_path_follow` and of `vfs_realpath`. -/
def walk (links : List Link) : ℕ → List Name → Option (List Name)
  | budget, cs =>
    match firstLink links cs with
    | none => some cs
    | some (i, link) =>
      match budget with
      | 0 => none
      | budget + 1 => (expandLink cs i link).bind (walk links budget)

def anchorPath (cwd path : Name) : Option Name :=
  if path.head? = some '/' then if path.length < pathMax then some path else none
  else
    let base := if cwd.head? = some '/' then cwd else ['/']
    let full := if base.getLast? = some '/' then base ++ path else base ++ '/' :: path
    if full.length < pathMax then some full else none

/-- `VFS_SYMLINK_MAX_FOLLOW`. -/
def symlinkMaxFollow : ℕ := 8

/-- `vfs_realpath`, and `resolve_path_follow` up to the lookup. -/
def realpath (links : List Link) (cwd path : Name) : Option (List Name) :=
  ((anchorPath cwd path).bind (canonicalPath pathMax)).bind (walk links symlinkMaxFollow)

variable {links : List Link} {cwd : Name}

theorem walk_of_firstLink (budget : ℕ) (hfirst : firstLink links cs = none) :
    walk links budget cs = some cs := by
  rw [walk, hfirst]

/-- The walk ends on a canonical path without links. -/
theorem walk_spec {budget : ℕ} (hcs : Canonical cs ∧ (render cs).length < pathMax)
    (hwalk : walk links budget cs = some ds) :
    Canonical ds ∧ (render ds).length < pathMax ∧ firstLink links ds = none := by
  induction budget generalizing cs with
  | zero =>
    rw [walk] at hwalk
    cases hfirst : firstLink links cs with
    | none =>
      rw [hfirst] at hwalk
      cases hwalk
      exact ⟨hcs.1, hcs.2, hfirst⟩
    | some found =>
      rw [hfirst] at hwalk
      cases hwalk
  | succ budget ih =>
    rw [walk] at hwalk
    cases hfirst : firstLink links cs with
    | none =>
      rw [hfirst] at hwalk
      cases hwalk
      exact ⟨hcs.1, hcs.2, hfirst⟩
    | some found =>
      rw [hfirst] at hwalk
      obtain ⟨next, hexpand, hnext⟩ := Option.bind_eq_some_iff.mp hwalk
      rw [expandLink] at hexpand
      split_ifs at hexpand
      exact ih (canonicalPath_spec (by decide) hexpand) hnext

theorem realpath_spec (hreal : realpath links cwd path = some cs) :
    Canonical cs ∧ (render cs).length < pathMax ∧ firstLink links cs = none := by
  obtain ⟨start, hstart, hwalk⟩ := Option.bind_eq_some_iff.mp hreal
  obtain ⟨full, -, hcanonical⟩ := Option.bind_eq_some_iff.mp hstart
  exact walk_spec (canonicalPath_spec (by decide) hcanonical) hwalk

/-- A canonical path stands for itself as far as links are concerned. -/
theorem realpath_render (hcs : Canonical cs) (hfits : (render cs).length < pathMax) :
    realpath links cwd (render cs) = walk links symlinkMaxFollow cs := by
  rw [realpath, anchorPath, if_pos (render_head cs), if_pos hfits, bind_some,
    canonicalPath_render hcs hfits, bind_some]

theorem firstLink_eq_none_iff : firstLink links cs = none ↔
    ∀ i, i < cs.length → findSymlink links (render (cs.take (i + 1))) = none := by
  rw [firstLink, findSome?_eq_none_iff]
  constructor
  · intro hnone i hi
    exact Option.map_eq_none_iff.mp (hnone i (mem_range.mpr hi))
  · intro hnone i hi
    exact Option.map_eq_none_iff.mpr (hnone i (mem_range.mp hi))

/-! ## Mounts -/

/-- A used slot of the mount table.  `ops` is the address of the operation table and
`vol` the volume behind `fs_data`. -/
structure Mount where
  slot : ℕ
  path : Name
  ops : ℕ
  vol : ℕ
deriving DecidableEq

/-- The test of `vfsm_find`: a prefix that ends at a slash or at the end. -/
def Mount.covers (m : Mount) (path : Name) : Bool :=
  m.path.isPrefixOf path &&
    (decide (m.path.length ≤ 1) || (path.drop m.path.length).head?.all (· == '/'))

/-- One turn of the loop over the table. -/
def longerMount (path : Name) (best : Option Mount) (m : Mount) : Option Mount :=
  if m.covers path ∧ best.elim 0 (·.path.length) < m.path.length then some m else best

def bestMount (mounts : List Mount) (path : Name) : Option Mount :=
  mounts.foldl (longerMount path) none

def Mount.rel (m : Mount) (path : Name) : Name :=
  match path.drop m.path.length with
  | '/' :: rest => rest
  | rest => rest

/-- `vfsm_find`. -/
def findMount (mounts : List Mount) (path : Name) : Option (Mount × Name) :=
  if path.head? = some '/' then (bestMount mounts path).map fun m => (m, m.rel path)
  else none

variable {mounts : List Mount} {m : Mount}

theorem bestMount_spec (hbest : bestMount mounts path = some m) :
    m ∈ mounts ∧ m.covers path = true ∧ 0 < m.path.length := by
  rw [bestMount] at hbest
  refine foldlRecOn (motive := fun best => ∀ m, best = some m →
    m ∈ mounts ∧ m.covers path = true ∧ 0 < m.path.length) mounts _ ?_ ?_ m hbest
  · exact nofun
  intro best hgood first hfirst b hb
  rw [longerMount] at hb
  split_ifs at hb with hbetter
  · cases hb
    exact ⟨hfirst, hbetter.1, Nat.zero_lt_of_lt hbetter.2⟩
  · exact hgood b hb

theorem bestMount_max {m' : Mount} (hmem : m' ∈ mounts) (hcovers : m'.covers path = true)
    (hbest : bestMount mounts path = some m) : m'.path.length ≤ m.path.length := by
  have hfold : ∀ (ms : List Mount) (best : Option Mount),
      m' ∈ ms ∨ m'.path.length ≤ best.elim 0 (·.path.length) →
      ms.foldl (longerMount path) best = some m → m'.path.length ≤ m.path.length := by
    intro ms
    induction ms with
    | nil =>
      intro best hreached hm
      rw [foldl_nil] at hm
      rw [hm] at hreached
      exact hreached.resolve_left not_mem_nil
    | cons first rest ih =>
      intro best hreached hm
      refine ih (longerMount path best first) ?_ hm
      have hgrows : best.elim 0 (·.path.length) ≤
          (longerMount path best first).elim 0 (·.path.length) := by
        rw [longerMount]
        split_ifs with hbetter
        · exact Nat.le_of_lt hbetter.2
        · exact Nat.le_refl _
      rcases hreached with hmem | hle
      · rcases mem_cons.mp hmem with rfl | hmem
        · refine .inr ?_
          rw [longerMount]
          split_ifs with hbetter
          · exact Nat.le_refl _
          · exact Nat.le_of_not_lt fun hlt => hbetter ⟨hcovers, hlt⟩
        · exact .inl hmem
      · exact .inr (Nat.le_trans hle hgrows)
  exact hfold mounts none (.inl hmem) hbest

theorem bestMount_congr {path' : Name} (hcovers : ∀ m ∈ mounts, m.covers path = m.covers path') :
    bestMount mounts path = bestMount mounts path' := by
  apply foldl_ext
  intro best m hm
  rw [longerMount, longerMount, hcovers m hm]

theorem Mount.covers_iff (hlong : 1 < m.path.length) : m.covers path = true ↔
    path = m.path ∨ ∃ rest, path = m.path ++ '/' :: rest := by
  rw [Mount.covers, Bool.and_eq_true, isPrefixOf_iff_prefix, Bool.or_eq_true,
    decide_eq_true_eq]
  constructor
  · rintro ⟨⟨rest, rfl⟩, hnext⟩
    have hnext := hnext.resolve_left (Nat.not_le_of_lt hlong)
    rw [drop_left] at hnext
    cases rest with
    | nil => exact .inl (append_nil _)
    | cons c rest =>
      have hc : c = '/' := by simpa using hnext
      exact .inr ⟨rest, hc ▸ rfl⟩
  · rintro (rfl | ⟨rest, rfl⟩)
    · refine ⟨prefix_rfl, .inr ?_⟩
      rw [drop_length]
      rfl
    · refine ⟨prefix_append _ _, .inr ?_⟩
      rw [drop_left]
      rfl

/-- A short mount path is the root, or empty and never chosen. -/
theorem Mount.covers_short (hshort : m.path.length ≤ 1) {path' : Name}
    (hpath : path.head? = some '/') (hpath' : path'.head? = some '/') :
    m.covers path = m.covers path' := by
  obtain ⟨rest, rfl⟩ : ∃ rest, path = '/' :: rest := by
    cases path with
    | nil => cases hpath
    | cons c rest => exact ⟨rest, by simpa using hpath⟩
  obtain ⟨rest', rfl⟩ : ∃ rest', path' = '/' :: rest' := by
    cases path' with
    | nil => cases hpath'
    | cons c rest' => exact ⟨rest', by simpa using hpath'⟩
  rw [Mount.covers, Mount.covers, decide_eq_true hshort, Bool.true_or, Bool.true_or,
    Bool.and_true, Bool.and_true]
  match hm : m.path with
  | [] => rfl
  | [c] => rfl
  | _ :: _ :: _ =>
    rw [hm] at hshort
    exact absurd hshort (by simp)

theorem joined_getLast (hcs : Plain cs) : (joined cs).getLast? ≠ some '/' := by
  induction cs with
  | nil => exact nofun
  | cons c rest ih =>
    obtain ⟨hc, hslash⟩ := hcs c mem_cons_self
    have hrest := ih fun d hd => hcs d (mem_cons_of_mem c hd)
    rw [joined, getLast?_append]
    cases hlast : (joined rest).getLast? with
    | none =>
      obtain ⟨d, tail, rfl⟩ := exists_cons_of_ne_nil hc
      rw [none_or, getLast?_cons_cons]
      exact fun hend => hslash (mem_of_getLast? hend)
    | some d =>
      rw [hlast] at hrest
      exact hrest

theorem Mount.ne_nil_of_covers (hlong : 1 < m.path.length)
    (hcovers : m.covers (render ds) = true) : ds ≠ [] := by
  rintro rfl
  have hlength : m.path.length ≤ (render []).length := by
    rcases (Mount.covers_iff hlong).mp hcovers with hsame | ⟨rest, hrest⟩
    · rw [hsame]
    · rw [hrest, length_append]
      exact Nat.le_add_right _ _
  exact absurd (Nat.lt_of_lt_of_le hlong hlength) (by decide)

/-- Below a directory that is not covered by a mount of its own, the mounts are those
of the directory. -/
theorem Mount.covers_child (hc : '/' ∉ c) (hnot : m.path ≠ render (ds ++ [c])) :
    m.covers (render (ds ++ [c])) = m.covers (render ds) := by
  by_cases hshort : m.path.length ≤ 1
  · exact Mount.covers_short hshort (render_head _) (render_head _)
  · have hlong : 1 < m.path.length := Nat.lt_of_not_le hshort
    rw [Bool.eq_iff_iff]
    constructor
    · intro hcovers
      rw [Mount.covers_iff hlong, render_concat] at hcovers
      rcases hcovers with hsame | ⟨rest, hrest⟩
      · exact absurd (hsame.symm.trans (render_concat ds c).symm) hnot
      · -- The slash after the mount path is the last slash or one before it.
        have hjoined : joined ds = m.path ∨ ∃ rest, joined ds = m.path ++ '/' :: rest := by
          rcases append_eq_append_iff.mp hrest with ⟨tail, htail, hcut⟩ | ⟨tail, htail, hcut⟩
          · cases tail with
            | nil => exact .inl (htail.trans (append_nil _)).symm
            | cons d tail =>
              rw [cons_append, cons.injEq] at hcut
              exact absurd (hcut.2 ▸ mem_append_right _ mem_cons_self) hc
          · cases tail with
            | nil => exact .inl (htail.trans (append_nil _))
            | cons d tail =>
              rw [cons_append, cons.injEq] at hcut
              exact .inr ⟨tail, hcut.1 ▸ htail⟩
        have hds : ds ≠ [] := by
          rintro rfl
          have hlength : m.path.length ≤ 0 := by
            rcases hjoined with hsame | ⟨rest, hrest⟩
            · rw [← hsame]
              exact Nat.le_refl 0
            · exact absurd (congrArg length hrest) (by simp [joined])
          exact absurd (Nat.lt_of_lt_of_le hlong hlength) (by decide)
        rw [Mount.covers_iff hlong, render, if_neg hds]
        exact hjoined
    · intro hcovers
      have hds := Mount.ne_nil_of_covers hlong hcovers
      rw [Mount.covers_iff hlong, render, if_neg hds] at hcovers
      rw [Mount.covers_iff hlong, render_concat]
      rcases hcovers with hsame | ⟨rest, hrest⟩
      · exact .inr ⟨c, by rw [hsame]⟩
      · exact .inr ⟨rest ++ '/' :: c, by rw [hrest, append_assoc, cons_append]⟩

/-- The name below the directory within its mount. -/
def childRel (rel c : Name) : Name := if rel = [] then c else rel ++ '/' :: c

theorem Mount.rel_self : m.rel m.path = [] := by
  rw [Mount.rel, drop_length]

theorem Mount.rel_slash (rest : Name) : m.rel (m.path ++ '/' :: rest) = rest := by
  rw [Mount.rel, drop_left]
  rfl

theorem Mount.rel_plain {rest : Name} (hrest : rest.head? ≠ some '/') :
    m.rel (m.path ++ rest) = rest := by
  rw [Mount.rel, drop_left]
  match rest with
  | [] => rfl
  | d :: tail =>
    split
    · next heq =>
        cases heq
        exact absurd rfl hrest
    · rfl

theorem Mount.rel_child (hds : Plain ds) (hc : c ≠ [] ∧ '/' ∉ c)
    (hcovers : m.covers (render ds) = true) (hpos : 0 < m.path.length) :
    m.rel (render (ds ++ [c])) = childRel (m.rel (render ds)) c := by
  have hhead : ∀ word rest : Name, word ≠ [] ∧ '/' ∉ word → (word ++ rest).head? ≠ some '/' := by
    rintro word rest ⟨hword, hslash⟩ hfirst
    obtain ⟨d, tail, rfl⟩ := exists_cons_of_ne_nil hword
    rw [cons_append, head?_cons, some_inj] at hfirst
    exact hslash (hfirst ▸ mem_cons_self)
  rw [render_concat]
  by_cases hshort : m.path.length ≤ 1
  · -- The root mount: the relative path is the path without its first slash.
    obtain ⟨d, hd⟩ := length_eq_one_iff.mp (Nat.le_antisymm hshort hpos)
    have hroot : m.path = ['/'] := by
      rw [Mount.covers, Bool.and_eq_true, isPrefixOf_iff_prefix, hd] at hcovers
      obtain ⟨rest, hrest⟩ := hcovers.1
      have hfirst := render_head ds
      rw [← hrest, cons_append, head?_cons, some_inj] at hfirst
      rw [hd, hfirst]
    cases ds with
    | nil =>
      have hself : m.rel (render []) = [] := by
        rw [show render [] = m.path from hroot.symm, Mount.rel_self]
      have hbelow : m.rel ('/' :: c) = c := by
        rw [show '/' :: c = m.path ++ c by rw [hroot]; rfl]
        exact Mount.rel_plain (by simpa using hhead c [] hc)
      rw [hself, childRel, if_pos rfl]
      exact hbelow
    | cons d rest =>
      have hd := hds d mem_cons_self
      have hparent : m.rel (render (d :: rest)) = d ++ joined rest := by
        rw [show render (d :: rest) = m.path ++ (d ++ joined rest) by rw [hroot]; rfl]
        exact Mount.rel_plain (hhead d _ hd)
      have hchild : m.rel (joined (d :: rest) ++ '/' :: c) = d ++ (joined rest ++ '/' :: c) := by
        rw [show joined (d :: rest) ++ '/' :: c =
          m.path ++ (d ++ (joined rest ++ '/' :: c)) by rw [hroot]; simp [joined]]
        exact Mount.rel_plain (hhead d _ hd)
      rw [hparent, hchild, childRel, if_neg (by simp [hd.1]), append_assoc]
  · have hlong : 1 < m.path.length := Nat.lt_of_not_le hshort
    have hne := Mount.ne_nil_of_covers hlong hcovers
    have hrender : render ds = joined ds := if_neg hne
    rcases (Mount.covers_iff hlong).mp hcovers with hsame | ⟨rest, hrest⟩
    · rw [hsame, Mount.rel_self, childRel, if_pos rfl, ← hrender, hsame, Mount.rel_slash]
    · have hfilled : rest ≠ [] := by
        rintro rfl
        apply joined_getLast hds
        rw [← hrender, hrest]
        simp
      rw [hrest, Mount.rel_slash, childRel, if_neg hfilled, ← hrender, hrest,
        append_assoc, cons_append, Mount.rel_slash]

theorem findMount_spec {rel : Name} (hfound : findMount mounts path = some (m, rel)) :
    path.head? = some '/' ∧ bestMount mounts path = some m ∧ m.rel path = rel := by
  rw [findMount] at hfound
  split_ifs at hfound with hhead
  obtain ⟨best, hbest, heq⟩ := Option.map_eq_some_iff.mp hfound
  cases heq
  exact ⟨hhead, hbest, rfl⟩

/-- A path with something behind its mount is not a mount point. -/
theorem not_mountPoint {rel : Name} (hfound : findMount mounts path = some (m, rel))
    (hrel : rel ≠ []) : ∀ m' ∈ mounts, m'.path ≠ path := by
  rintro m' hm' rfl
  obtain ⟨-, hbest, rfl⟩ := findMount_spec hfound
  have hself : m'.covers m'.path = true := by
    rw [Mount.covers, drop_length]
    simp
  obtain ⟨-, hcovers, -⟩ := bestMount_spec hbest
  rw [Mount.covers, Bool.and_eq_true, isPrefixOf_iff_prefix] at hcovers
  have hwhole : m.path = m'.path := hcovers.1.eq_of_length_le (bestMount_max hm' hself hbest)
  apply hrel
  rw [← hwhole]
  exact Mount.rel_self

/-- How a path is made of its mount and what is behind it. -/
theorem findMount_path {rel : Name} (hfound : findMount mounts path = some (m, rel))
    (hrel : rel ≠ []) : path = m.path ++ '/' :: rel ∨ m.path = ['/'] ∧ path = '/' :: rel := by
  obtain ⟨hhead, hbest, rfl⟩ := findMount_spec hfound
  obtain ⟨-, hcovers, hpos⟩ := bestMount_spec hbest
  by_cases hlong : 1 < m.path.length
  · rcases (Mount.covers_iff hlong).mp hcovers with rfl | ⟨rest, rfl⟩
    · exact absurd Mount.rel_self hrel
    · rw [Mount.rel_slash]
      exact .inl rfl
  · obtain ⟨d, hd⟩ := length_eq_one_iff.mp (Nat.le_antisymm (Nat.le_of_not_lt hlong) hpos)
    rw [Mount.covers, Bool.and_eq_true, isPrefixOf_iff_prefix, hd] at hcovers
    obtain ⟨⟨rest, rfl⟩, -⟩ := hcovers
    obtain rfl : d = '/' := by simpa using hhead
    rw [Mount.rel, hd]
    match rest with
    | [] => exact .inr ⟨rfl, rfl⟩
    | c :: rest =>
      by_cases hc : c = '/'
      · rw [hc]
        exact .inl rfl
      · refine .inr ⟨rfl, ?_⟩
        simp [hc]

/-- Below a directory, away from mount points, the mount is the directory's and the
relative path is one component longer. -/
theorem findMount_child (hds : Plain ds) (hc : c ≠ [] ∧ '/' ∉ c)
    (hnot : ∀ m ∈ mounts, m.path ≠ render (ds ++ [c])) :
    findMount mounts (render (ds ++ [c])) =
      (findMount mounts (render ds)).map fun found => (found.1, childRel found.2 c) := by
  have hbest : bestMount mounts (render (ds ++ [c])) = bestMount mounts (render ds) :=
    bestMount_congr fun m hm => Mount.covers_child hc.2 (hnot m hm)
  rw [findMount, findMount, if_pos (render_head _), if_pos (render_head _), hbest]
  cases hfound : bestMount mounts (render ds) with
  | none => rfl
  | some m =>
    obtain ⟨-, hcovers, hpos⟩ := bestMount_spec hfound
    rw [map_some, map_some, map_some, Mount.rel_child hds hc hcovers hpos]

end AuraLite.Vfs
