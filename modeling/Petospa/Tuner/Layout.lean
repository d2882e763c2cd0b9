import Petospa.Tuner.Explorer

/-!
# The layout of a control string

`layout s ocs` is the control string that `s` and the choices `ocs` spell out
with their current values. The explorer builds it once and then edits it in
place; everything it tests is the layout of a prefix of its choices.
-/

namespace Petospa

open Text

/-- The encoding of choices behind a string that was last switched to the given
function and kind. -/
def encode (lastFunctionNo lastOpportunityNo : Int) : List OptimisticChoice → Str
  | [] => []
  | oc :: ocs =>
      header lastFunctionNo lastOpportunityNo oc ++
        optionChar oc.value :: encode oc.functionNo oc.opportunityNo ocs

/-- The control string for choices behind an earlier control string. -/
def layout (s : Str) (ocs : List OptimisticChoice) : Str := s ++ encode (-1) (-1) ocs

/-- The function a string is switched to after some choices. -/
def endFunctionNo (lastFunctionNo : Int) : List OptimisticChoice → Int
  | [] => lastFunctionNo
  | oc :: ocs => endFunctionNo oc.functionNo ocs

/-- The kind a string is switched to after some choices. -/
def endOpportunityNo (lastOpportunityNo : Int) : List OptimisticChoice → Int
  | [] => lastOpportunityNo
  | oc :: ocs => endOpportunityNo oc.opportunityNo ocs

/-- What stands in front of the value of a choice. -/
def layoutFront (s : Str) (ocs : List OptimisticChoice) (oc : OptimisticChoice) : Str :=
  layout s ocs ++ header (endFunctionNo (-1) ocs) (endOpportunityNo (-1) ocs) oc

theorem encode_append (f k : Int) (xs ys : List OptimisticChoice) :
    encode f k (xs ++ ys) =
      encode f k xs ++ encode (endFunctionNo f xs) (endOpportunityNo k xs) ys := by
  induction xs generalizing f k with
  | nil => rfl
  | cons oc xs ih => simp [encode, endFunctionNo, endOpportunityNo, ih]

theorem layout_split (s : Str) (xs : List OptimisticChoice) (oc : OptimisticChoice)
    (ys : List OptimisticChoice) :
    layout s (xs ++ oc :: ys) =
      layoutFront s xs oc ++ optionChar oc.value :: encode oc.functionNo oc.opportunityNo ys := by
  simp [layout, layoutFront, encode_append, encode]

theorem layout_snoc (s : Str) (xs : List OptimisticChoice) (oc : OptimisticChoice) :
    layout s (xs ++ [oc]) = layoutFront s xs oc ++ [optionChar oc.value] :=
  layout_split s xs oc []

theorem layout_take_isPrefix (s : Str) (ocs : List OptimisticChoice) (n : Nat) :
    layout s (ocs.take n) <+: layout s ocs := by
  refine ⟨encode (endFunctionNo (-1) (ocs.take n)) (endOpportunityNo (-1) (ocs.take n))
    (ocs.drop n), ?_⟩
  rw [layout, layout, List.append_assoc, ← encode_append, List.take_append_drop]

theorem layout_isPrefix_front {s : Str} {ocs : List OptimisticChoice} {i : Nat}
    (hi : i < ocs.length) : layout s (ocs.take i) <+: layoutFront s (ocs.take i) ocs[i] :=
  ⟨_, rfl⟩

/-- Replacing an element by one with the same image. -/
theorem map_set_of_eq {α β : Type*} (f : α → β) {xs : List α} {i : Nat} (hi : i < xs.length) {y : α}
    (hy : f y = f xs[i]) : (xs.set i y).map f = xs.map f := by
  rw [List.map_set, hy, ← List.getElem_map f (h := by simpa using hi), List.set_getElem_self]

section Positions

variable {s : Str} {ocs : List OptimisticChoice} {i : Nat}

theorem layout_take_succ (hi : i < ocs.length) :
    layout s (ocs.take (i + 1)) =
      layoutFront s (ocs.take i) ocs[i] ++ [optionChar ocs[i].value] := by
  rw [List.take_succ_eq_append_getElem hi, layout_snoc]

theorem layout_eq_front (hi : i < ocs.length) :
    layout s ocs = layoutFront s (ocs.take i) ocs[i] ++
      optionChar ocs[i].value :: encode ocs[i].functionNo ocs[i].opportunityNo
        (ocs.drop (i + 1)) := by
  rw [← layout_split, ← List.drop_eq_getElem_cons hi, List.take_append_drop]

/-- Cutting behind a value leaves the layout of the choices up to it. -/
theorem take_layout (hi : i < ocs.length) :
    (layout s ocs).take ((layoutFront s (ocs.take i) ocs[i]).length + 1) =
      layout s (ocs.take (i + 1)) := by
  rw [layout_take_succ hi, layout_eq_front hi, List.take_length_add_append]
  rfl

theorem getElem?_layout (hi : i < ocs.length) :
    (layout s ocs)[(layoutFront s (ocs.take i) ocs[i]).length]? =
      some (optionChar ocs[i].value) := by
  rw [layout_eq_front hi, List.getElem?_append_right (Nat.le_refl _), Nat.sub_self]
  rfl

end Positions

/-- What no step of the search changes about a choice. -/
def OptimisticChoice.blank (oc : OptimisticChoice) : OptimisticChoice :=
  { oc with fixed := false, value := 0 }

/-- What the positions of a layout depend on. -/
def OptimisticChoice.shape (oc : OptimisticChoice) : Int × Int := (oc.functionNo, oc.opportunityNo)

section Shape

theorem endFunctionNo_congr {xs ys : List OptimisticChoice} (f : Int)
    (h : xs.map OptimisticChoice.shape = ys.map OptimisticChoice.shape) :
    endFunctionNo f xs = endFunctionNo f ys := by
  induction xs generalizing ys f with
  | nil =>
      obtain rfl : ys = [] := by simpa using h.symm
      rfl
  | cons x xs ih =>
      cases ys with
      | nil => simp at h
      | cons y ys =>
          simp only [List.map_cons, List.cons.injEq, OptimisticChoice.shape, Prod.mk.injEq] at h
          simpa only [endFunctionNo, h.1.1] using ih y.functionNo h.2

theorem endOpportunityNo_congr {xs ys : List OptimisticChoice} (k : Int)
    (h : xs.map OptimisticChoice.shape = ys.map OptimisticChoice.shape) :
    endOpportunityNo k xs = endOpportunityNo k ys := by
  induction xs generalizing ys k with
  | nil =>
      obtain rfl : ys = [] := by simpa using h.symm
      rfl
  | cons x xs ih =>
      cases ys with
      | nil => simp at h
      | cons y ys =>
          simp only [List.map_cons, List.cons.injEq, OptimisticChoice.shape, Prod.mk.injEq] at h
          simpa only [endOpportunityNo, h.1.2] using ih y.opportunityNo h.2

/-- Values leave no trace in where a layout puts its characters. -/
theorem length_encode_congr {xs ys : List OptimisticChoice} (f k : Int)
    (h : xs.map OptimisticChoice.shape = ys.map OptimisticChoice.shape) :
    (encode f k xs).length = (encode f k ys).length := by
  induction xs generalizing ys f k with
  | nil =>
      obtain rfl : ys = [] := by simpa using h.symm
      rfl
  | cons x xs ih =>
      cases ys with
      | nil => simp at h
      | cons y ys =>
          simp only [List.map_cons, List.cons.injEq, OptimisticChoice.shape, Prod.mk.injEq] at h
          obtain ⟨⟨hf, hk⟩, hrest⟩ := h
          simp only [encode, header, hf, hk, List.length_append, List.length_cons]
          rw [ih y.functionNo y.opportunityNo hrest]

/-- Two lists of the same choices put the value of each choice at one place. -/
theorem length_layoutFront_congr {s : Str} {xs ys : List OptimisticChoice}
    (h : xs.map OptimisticChoice.shape = ys.map OptimisticChoice.shape) {i : Nat}
    (hx : i < xs.length) (hy : i < ys.length) :
    (layoutFront s (xs.take i) xs[i]).length = (layoutFront s (ys.take i) ys[i]).length := by
  have hi : xs[i].shape = ys[i].shape := by
    have hget := List.getElem_of_eq h (i := i) (by simpa using hx)
    rwa [List.getElem_map, List.getElem_map] at hget
  have htake : (xs.take i).map OptimisticChoice.shape = (ys.take i).map OptimisticChoice.shape := by
    rw [List.map_take, List.map_take, h]
  simp only [OptimisticChoice.shape, Prod.mk.injEq] at hi
  simp only [layoutFront, layout, header, List.length_append, length_encode_congr _ _ htake,
    endFunctionNo_congr _ htake, endOpportunityNo_congr _ htake, hi.1, hi.2]

end Shape

namespace ChoiceExplorer

theorem place_fst (s : Str) (f k : Int) (ocs : List OptimisticChoice) :
    (place s f k ocs).1 = s ++ encode f k ocs := by
  induction ocs generalizing s f k with
  | nil => simp [place, encode]
  | cons oc ocs ih => simp [place, encode, ih]

@[simp] theorem place_length (s : Str) (f k : Int) (ocs : List OptimisticChoice) :
    (place s f k ocs).2.length = ocs.length := by
  induction ocs generalizing s f k with
  | nil => rfl
  | cons oc ocs ih => simp [place, ih]

/-- Placing changes nothing but the position. -/
theorem getElem?_place (s : Str) (f k : Int) (ocs : List OptimisticChoice) (i : Nat) :
    (place s f k ocs).2[i]? = ocs[i]?.map fun oc => { oc with
      position := (s ++ encode f k (ocs.take i) ++
        header (endFunctionNo f (ocs.take i)) (endOpportunityNo k (ocs.take i)) oc).length } := by
  induction ocs generalizing s f k i with
  | nil => rfl
  | cons oc ocs ih =>
      cases i with
      | zero => simp [place, encode, endFunctionNo, endOpportunityNo]
      | succ i =>
          simpa [place, encode, endFunctionNo, endOpportunityNo] using
            ih (s ++ header f k oc ++ [optionChar oc.value]) oc.functionNo oc.opportunityNo i

theorem map_shape_place (s : Str) (f k : Int) (ocs : List OptimisticChoice) :
    (place s f k ocs).2.map OptimisticChoice.shape = ocs.map OptimisticChoice.shape := by
  induction ocs generalizing s f k with
  | nil => rfl
  | cons oc ocs ih => simp [place, OptimisticChoice.shape, ih]

/-- The noted position is the end of what stands in front of the value. -/
theorem place_position (s : Str) (ocs : List OptimisticChoice) {i : Nat}
    (hi : i < (place s (-1) (-1) ocs).2.length) :
    ((place s (-1) (-1) ocs).2[i]).position =
      (layoutFront s ((place s (-1) (-1) ocs).2.take i) (place s (-1) (-1) ocs).2[i]).length := by
  have hocs : i < ocs.length := by simpa using hi
  have hplace := getElem?_place s (-1) (-1) ocs i
  rw [List.getElem?_eq_getElem hi, List.getElem?_eq_getElem hocs, Option.map_some,
    Option.some.injEq] at hplace
  rw [length_layoutFront_congr (map_shape_place s (-1) (-1) ocs) hi hocs, hplace]
  rfl

theorem encode_place (s : Str) (f k f' k' : Int) (ocs : List OptimisticChoice) :
    encode f k (place s f' k' ocs).2 = encode f k ocs := by
  induction ocs generalizing s f k f' k' with
  | nil => rfl
  | cons oc ocs ih => simp [place, encode, header, ih]

end ChoiceExplorer

end Petospa
