import HybridCheck.Text.Columns
import Mathlib

/-!
# Layout in columns

Laying out a text puts blanks behind cells and changes nothing else: the characters that are neither
blanks nor ends of cells are the same, in the same order and on the same lines.
-/

namespace HybridCheck.Text

def isSolid (c : Char) : Bool := c != ' ' && c != '\t' && c.toNat != 11

/-- A form feed ends a line like a newline. -/
def plainEnd (c : Char) : Char := if c.toNat = 12 then '\n' else c

@[simp] theorem plainEnd_plainEnd (c : Char) : plainEnd (plainEnd c) = plainEnd c := by
  unfold plainEnd
  split <;> rfl

@[simp] theorem isSolid_plainEnd (c : Char) : isSolid (plainEnd c) = isSolid c := by
  unfold plainEnd
  split
  · next hc =>
    obtain rfl : c = Char.ofNat 12 := by rw [← Char.ofNat_toNat c, hc]
    decide
  · rfl

/-- What layout keeps of a text: everything but blanks and the ends of cells. -/
def solid (s : List Char) : List Char := (s.filter isSolid).map plainEnd

@[simp] theorem solid_append (s t : List Char) : solid (s ++ t) = solid s ++ solid t := by
  simp [solid]

@[simp] theorem solid_flatten (ss : List (List Char)) :
    solid ss.flatten = (ss.map solid).flatten := by
  induction ss with
  | nil => rfl
  | cons s ss ih => rw [List.flatten_cons, solid_append, ih, List.map_cons, List.flatten_cons]

/-- It does not matter how lines end. -/
theorem solid_map_plainEnd (s : List Char) : solid (s.map plainEnd) = solid s := by
  simp [solid, List.filter_map, Function.comp_def]

/-! ## Splitting -/

section

variable {α : Type} {p : α → Bool}

theorem splitAll_cons (p : α → Bool) (a : α) (as : List α) : ∃ part parts,
    splitAll p as = part :: parts ∧
      splitAll p (a :: as) = if p a then [] :: part :: parts else (a :: part) :: parts := by
  induction as generalizing a with
  | nil => exact ⟨[], [], rfl, rfl⟩
  | cons b as ih =>
    obtain ⟨part, parts, -, h⟩ := ih b
    rw [splitAll.eq_2 p a, h]
    split
    · exact ⟨_, _, rfl, rfl⟩
    · exact ⟨_, _, rfl, rfl⟩

theorem splitAll_ne_nil (p : α → Bool) (as : List α) : splitAll p as ≠ [] := by
  cases as with
  | nil => exact List.cons_ne_nil _ _
  | cons a as =>
    obtain ⟨part, parts, -, h⟩ := splitAll_cons p a as
    rw [h]
    split <;> exact List.cons_ne_nil _ _

/-- Only the separators are lost. -/
theorem flatten_splitAll (as : List α) : (splitAll p as).flatten = as.filter (!p ·) := by
  induction as with
  | nil => rfl
  | cons a as ih =>
    obtain ⟨part, parts, h, hsplit⟩ := splitAll_cons p a as
    rw [h] at ih
    rw [hsplit]
    by_cases ha : p a = true
    · rw [if_pos ha, List.filter_cons_of_neg (by simp [ha]), ← ih]
      rfl
    · rw [if_neg ha, List.filter_cons_of_pos (by simpa using ha), ← ih]
      rfl

/-- The parts with a separator between them. -/
theorem flatten_intersperse_splitAll (sep : α) (as : List α) :
    ((splitAll p as).intersperse [sep]).flatten = as.map fun a => if p a then sep else a := by
  induction as with
  | nil => rfl
  | cons a as ih =>
    obtain ⟨part, parts, h, hsplit⟩ := splitAll_cons p a as
    rw [h] at ih
    rw [hsplit, List.map_cons, ← ih]
    by_cases ha : p a = true
    · rw [if_pos ha, if_pos ha]
      rfl
    · rw [if_neg ha, if_neg ha]
      cases parts <;> rfl

theorem map_intersperse {β : Type} (f : α → β) (sep : α) : (as : List α) →
    (as.intersperse sep).map f = (as.map f).intersperse (f sep)
  | [] => rfl
  | [_] => rfl
  | a :: b :: as => by
    have ih := map_intersperse f sep (b :: as)
    rw [List.map_cons] at ih
    simp [ih]

end

/-! ## Lines -/

theorem solid_fill (cell : List Char) (width : Nat) : solid (fill cell width) = solid cell := by
  have blanks (n : Nat) : solid (List.replicate n ' ') = [] := by
    rw [solid, List.filter_replicate_of_neg (by decide), List.map_nil]
  rw [fill, solid_append, blanks, List.append_nil]

theorem solid_cells {cells : List (List Char)} {widths : List (Option Nat)}
    (h : cells.length ≤ widths.length) :
    solid ((cells.zip widths).flatMap fun (c, w) => fill c (w.getD c.length)) =
      solid cells.flatten := by
  induction cells generalizing widths with
  | nil => rfl
  | cons c cells ih =>
    obtain _ | ⟨w, widths⟩ := widths
    · cases h
    · rw [List.zip_cons_cons, List.flatMap_cons, List.flatten_cons, solid_append, solid_append,
        solid_fill, ih (Nat.le_of_succ_le_succ h)]

theorem ColumnLine.solid_ofChars (line : List Char) :
    solid ((ofChars line).cells.flatten ++ (ofChars line).tail) = solid line := by
  let p : Char → Bool := fun c => c = '\t' || c.toNat = 11
  have parts : (ofChars line).cells.flatten ++ (ofChars line).tail = (splitAll p line).flatten := by
    have hne := splitAll_ne_nil p line
    have whole := congrArg List.flatten (List.dropLast_concat_getLast hne)
    rw [List.flatten_append, List.flatten_singleton] at whole
    change (splitAll p line).dropLast.flatten ++ (splitAll p line).getLast?.getD [] = _
    rw [List.getLast?_eq_getLast_of_ne_nil hne, Option.getD_some, whole]
  have kept (c : Char) : (isSolid c && !p c) = isSolid c := by
    simp only [isSolid, p]
    grind
  rw [parts, flatten_splitAll, solid, List.filter_filter]
  simp only [kept]
  rfl

/-- Cells are filled up on their line. -/
theorem ColumnLine.solid_render {line : List Char} {widths : List (Option Nat)}
    (h : (ofChars line).cells.length ≤ widths.length) :
    solid ((ofChars line).render widths) = solid line := by
  rw [render, solid_append, solid_cells h, ← solid_append, solid_ofChars]

theorem le_foldl_max {n run : Nat} {ns : List Nat} (h : n ≤ run ∨ n ∈ ns) :
    n ≤ ns.foldl max run := by
  induction ns generalizing run with
  | nil => simpa using h
  | cons m ns ih =>
    refine ih ?_
    rcases h with h | h
    · exact Or.inl (h.trans (le_max_left run m))
    · rcases List.mem_cons.1 h with rfl | h
      · exact Or.inl (le_max_right run n)
      · exact Or.inr h

theorem map_solid_layoutLines (ls : List (List Char)) :
    (layoutLines (ls.map ColumnLine.ofChars)).map solid = ls.map solid := by
  refine List.ext_getElem (by simp [layoutLines]) fun i hi hi' => ?_
  rw [List.length_map] at hi'
  have columns : (ColumnLine.ofChars ls[i]).cells.length ≤
      ((ls.map ColumnLine.ofChars).map fun l => l.cells.length).foldl max 0 :=
    le_foldl_max (Or.inr (List.mem_map_of_mem (List.mem_map_of_mem (List.getElem_mem hi'))))
  simp only [layoutLines, List.getElem_map, List.getElem_mapIdx]
  exact ColumnLine.solid_render (by simpa using columns)

/-! ## Pages -/

/-- Parts between line ends keep what they consist of if each of them does. -/
theorem solid_intersperse {ss ts : List (List Char)} (h : ss.map solid = ts.map solid) :
    solid (ss.intersperse ['\n']).flatten = solid (ts.intersperse ['\n']).flatten := by
  rw [solid_flatten, solid_flatten, map_intersperse, map_intersperse, h]

theorem solid_layoutPage (page : List Char) : solid (layoutPage page) = solid page := by
  have h := solid_intersperse (map_solid_layoutLines (splitAll (· = '\n') page))
  rw [flatten_intersperse_splitAll] at h
  have same (c : Char) : (if decide (c = '\n') = true then '\n' else c) = c := by
    split
    · next hc => exact (of_decide_eq_true hc).symm
    · rfl
  rw [layoutPage, h, List.map_congr_left fun c _ => same c, List.map_id']

/-- Layout changes nothing but blanks, tabs and the way in which lines end. -/
theorem solid_layout (text : String) : solid (layout text).toList = solid text.toList := by
  have pages (ps : List (List Char)) : (ps.map layoutPage).map solid = ps.map solid := by
    rw [List.map_map]
    exact List.map_congr_left fun page _ => solid_layoutPage page
  have h := solid_intersperse (pages (splitAll (fun c => c.toNat = 12) text.toList))
  rw [flatten_intersperse_splitAll] at h
  rw [layout, String.toList_ofList, h, ← solid_map_plainEnd text.toList]
  simp only [decide_eq_true_eq]
  rfl

end HybridCheck.Text
