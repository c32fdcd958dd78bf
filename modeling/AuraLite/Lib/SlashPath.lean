import Mathlib.Data.List.TakeWhile

/-!
# Paths with slashes

A path is a list of characters.  `components` are the non-empty pieces between the
slashes, `render` writes an absolute path from its components, and `dirName` cuts a
path at its last slash.
-/

namespace AuraLite.SlashPath

open List

abbrev Name := List Char

/-- A component that was read, if there was one. -/
def finished (read : Name) : List Name := if read = [] then [] else [read]

def componentsFrom : Name → Name → List Name
  | read, [] => finished read
  | read, c :: rest =>
    if c = '/' then finished read ++ componentsFrom [] rest
    else componentsFrom (read ++ [c]) rest

def components (path : Name) : List Name := componentsFrom [] path

/-- Each component with a slash before it. -/
def joined : List Name → Name
  | [] => []
  | c :: rest => '/' :: c ++ joined rest

def render (cs : List Name) : Name := if cs = [] then ['/'] else joined cs

/-- What stands before the last slash, if there is one. -/
def dirName (path : Name) : Option Name :=
  match path.reverse.dropWhile (· ≠ '/') with
  | [] => none
  | _ :: before => some before.reverse

/-- A list of proper components. -/
def Plain (cs : List Name) : Prop := ∀ c ∈ cs, c ≠ [] ∧ '/' ∉ c

variable {cs ds : List Name} {c path : Name}

theorem Plain.append (hcs : Plain cs) (hds : Plain ds) : Plain (cs ++ ds) := by
  intro c hc
  exact (List.mem_append.mp hc).elim (hcs c) (hds c)

theorem plain_componentsFrom (path read : Name) (hread : '/' ∉ read) :
    Plain (componentsFrom read path) := by
  have hfinished : ∀ read : Name, '/' ∉ read → Plain (finished read) := by
    intro read hread c hc
    rw [finished] at hc
    split_ifs at hc with hempty
    · cases hc
    · rw [mem_singleton] at hc
      rw [hc]
      exact ⟨hempty, hread⟩
  induction path generalizing read with
  | nil => exact hfinished read hread
  | cons c rest ih =>
    rw [componentsFrom]
    split_ifs with hslash
    · exact (hfinished read hread).append (ih [] not_mem_nil)
    · apply ih
      rw [mem_append, mem_singleton, not_or]
      exact ⟨hread, fun h => hslash h.symm⟩

theorem plain_components (path : Name) : Plain (components path) :=
  plain_componentsFrom path [] not_mem_nil

theorem componentsFrom_append (read word rest : Name) (hword : '/' ∉ word) :
    componentsFrom read (word ++ rest) = componentsFrom (read ++ word) rest := by
  induction word generalizing read with
  | nil => rw [nil_append, append_nil]
  | cons c word ih =>
    rw [mem_cons, not_or] at hword
    rw [cons_append, componentsFrom, if_neg fun h => hword.1 h.symm, ih _ hword.2, append_assoc]
    rfl

theorem componentsFrom_joined (hcs : Plain cs) (read : Name) :
    componentsFrom read (joined cs) = finished read ++ cs := by
  induction cs generalizing read with
  | nil => exact (append_nil _).symm
  | cons c rest ih =>
    obtain ⟨hc, hslash⟩ := hcs c mem_cons_self
    have hrest : Plain rest := fun d hd => hcs d (mem_cons_of_mem c hd)
    have hone : finished c = [c] := if_neg hc
    rw [joined, cons_append, componentsFrom, if_pos rfl,
      componentsFrom_append [] c _ hslash, nil_append, ih hrest, hone]
    rfl

/-- The components of a rendered path are the ones it was rendered from. -/
theorem components_render (hcs : Plain cs) : components (render cs) = cs := by
  rw [render]
  split_ifs with hempty
  · rw [hempty]
    rfl
  · exact componentsFrom_joined hcs []

theorem render_head (cs : List Name) : (render cs).head? = some '/' := by
  rw [render]
  split_ifs with hempty
  · rfl
  · obtain ⟨c, rest, rfl⟩ := exists_cons_of_ne_nil hempty
    rfl

theorem joined_append (cs ds : List Name) : joined (cs ++ ds) = joined cs ++ joined ds := by
  induction cs with
  | nil => rfl
  | cons c rest ih =>
    rw [cons_append, joined, joined, ih, append_assoc]

theorem render_concat (ds : List Name) (c : Name) : render (ds ++ [c]) = joined ds ++ '/' :: c := by
  rw [render, if_neg (by simp), joined_append, joined, joined, append_nil]

/-- A word without slashes is cut off at the slash before it. -/
theorem dirName_append (before word : Name) (hword : '/' ∉ word) :
    dirName (before ++ '/' :: word) = some before := by
  have hrev : (before ++ '/' :: word).reverse = word.reverse ++ '/' :: before.reverse := by
    simp
  have hdrop : (word.reverse ++ '/' :: before.reverse).dropWhile (· ≠ '/') =
      '/' :: before.reverse := by
    rw [dropWhile_append_of_pos]
    · rfl
    · intro c hc
      rw [mem_reverse] at hc
      exact decide_eq_true fun h => hword (h ▸ hc)
  rw [dirName, hrev, hdrop]
  exact congrArg some (reverse_reverse before)

theorem dirName_word (word : Name) (hword : '/' ∉ word) : dirName word = none := by
  have hdrop : word.reverse.dropWhile (· ≠ '/') = [] := by
    rw [dropWhile_eq_nil_iff]
    intro c hc
    rw [mem_reverse] at hc
    exact decide_eq_true fun h => hword (h ▸ hc)
  rw [dirName, hdrop]

end AuraLite.SlashPath
