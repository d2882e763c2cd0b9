import Mathlib.Data.List.TakeWhile

/-!
# Regular expressions over classes of characters

A pattern is a sequence of characters, greedy repetitions of classes and anchors
at the start of a line. `matchAt` is a backtracking matcher: a repetition takes
as much as it can and gives characters back while what follows does not match.
`findAll` goes through a text from left to right, as `re.findall` does with a
pattern that matches no empty text.
-/

namespace Regex

variable {α : Type*}

inductive Atom (α : Type*) where
  /-- `^` with `re.MULTILINE`. -/
  | lineStart
  | char (c : α)
  /-- At least `least` characters of a class. -/
  | many (cls : α → Bool) (least : Nat)
  /-- The same in parentheses, whose text is a group of the match. -/
  | group (cls : α → Bool) (least : Nat)

abbrev Pattern (α : Type*) := List (Atom α)

/-- The character in front of a position, none at the start of the text, after
some more characters. -/
def lastOf : Option α → List α → Option α
  | previous, [] => previous
  | _, c :: s => lastOf (some c) s

/-- The numbers of characters that a repetition tries, in this order. -/
def lengths (cls : α → Bool) (least : Nat) (s : List α) : List Nat :=
  (List.range' least ((s.takeWhile cls).length + 1 - least)).reverse

section Matching

variable [DecidableEq α] (newline : α)

/-- The groups and the length of the match at a position. -/
def matchAt : Pattern α → Option α → List α → Option (List (List α) × Nat)
  | [], _, _ => some ([], 0)
  | .lineStart :: p, previous, s =>
      if previous = none ∨ previous = some newline then matchAt p previous s else none
  | .char _ :: _, _, [] => none
  | .char c :: p, _, d :: s =>
      if d = c then (matchAt p (some d) s).map fun m => (m.1, m.2 + 1) else none
  | .many cls least :: p, previous, s =>
      (lengths cls least s).findSome? fun k =>
        (matchAt p (lastOf previous (s.take k)) (s.drop k)).map fun m => (m.1, k + m.2)
  | .group cls least :: p, previous, s =>
      (lengths cls least s).findSome? fun k =>
        (matchAt p (lastOf previous (s.take k)) (s.drop k)).map fun m => (s.take k :: m.1, k + m.2)

/-- The groups of all matches from a position on, behind the next `skip` characters. -/
def findAll (p : Pattern α) : Nat → Option α → List α → List (List (List α))
  | _, _, [] => []
  | skip + 1, _, c :: s => findAll p skip (some c) s
  | 0, previous, c :: s =>
      match matchAt newline p previous (c :: s) with
      | some (groups, length + 1) => groups :: findAll p length (some c) s
      | _ => findAll p 0 (some c) s

variable {newline} {p : Pattern α} {previous : Option α} {s taken : List α}

/-! ### Matching -/

/-- Literal text in front of a pattern. -/
theorem matchAt_chars (cs : List α) :
    matchAt newline (cs.map .char ++ p) previous (cs ++ s) =
      (matchAt newline p (lastOf previous cs) s).map fun m => (m.1, cs.length + m.2) := by
  induction cs generalizing previous with
  | nil => simp [lastOf]
  | cons c cs ih =>
      rw [List.map_cons, List.cons_append, List.cons_append, matchAt, if_pos rfl, ih, lastOf,
        Option.map_map]
      congr 1
      funext m
      simp only [Function.comp_apply, List.length_cons]
      congr 1
      omega

theorem matchAt_chars_eq_none (cs : List α) (h : ¬ cs <+: s) :
    matchAt newline (cs.map .char ++ p) previous s = none := by
  induction cs generalizing previous s with
  | nil => exact absurd (List.nil_prefix) h
  | cons c cs ih =>
      cases s with
      | nil => rfl
      | cons d s =>
          rw [List.map_cons, List.cons_append, matchAt]
          split
          · rename_i hcd
            rw [ih (fun hstarts => h (by rw [hcd]; exact List.cons_prefix_cons.mpr ⟨rfl, hstarts⟩)),
              Option.map_none]
          · rfl

omit [DecidableEq α] in
/-- A repetition that ends where it has to tries its whole length first. -/
theorem lengths_append {cls : α → Bool} {least : Nat} (htaken : ∀ c ∈ taken, cls c = true)
    (hend : ∀ c, s.head? = some c → cls c = false) (hleast : least ≤ taken.length) :
    ∃ shorter, lengths cls least (taken ++ s) = taken.length :: shorter := by
  have htakeWhile : (taken ++ s).takeWhile cls = taken := by
    rw [List.takeWhile_append_of_pos htaken]
    cases s with
    | nil => simp
    | cons c s => rw [List.takeWhile_cons_of_neg (by simp [hend c rfl]), List.append_nil]
  have hlength : taken.length + 1 - least = (taken.length - least) + 1 := by omega
  refine ⟨(List.range' least (taken.length - least)).reverse, ?_⟩
  rw [lengths, htakeWhile, hlength, List.range'_concat, List.reverse_append, Nat.one_mul,
    Nat.add_sub_cancel' hleast]
  rfl

theorem matchAt_many {cls : α → Bool} {least : Nat} {m : List (List α) × Nat}
    (htaken : ∀ c ∈ taken, cls c = true) (hend : ∀ c, s.head? = some c → cls c = false)
    (hleast : least ≤ taken.length)
    (hmatch : matchAt newline p (lastOf previous taken) s = some m) :
    matchAt newline (.many cls least :: p) previous (taken ++ s) =
      some (m.1, taken.length + m.2) := by
  obtain ⟨shorter, hlengths⟩ := lengths_append htaken hend hleast
  rw [matchAt, hlengths, List.findSome?_cons, List.take_left, List.drop_left, hmatch]
  rfl

theorem matchAt_group {cls : α → Bool} {least : Nat} {m : List (List α) × Nat}
    (htaken : ∀ c ∈ taken, cls c = true) (hend : ∀ c, s.head? = some c → cls c = false)
    (hleast : least ≤ taken.length)
    (hmatch : matchAt newline p (lastOf previous taken) s = some m) :
    matchAt newline (.group cls least :: p) previous (taken ++ s) =
      some (taken :: m.1, taken.length + m.2) := by
  obtain ⟨shorter, hlengths⟩ := lengths_append htaken hend hleast
  rw [matchAt, hlengths, List.findSome?_cons, List.take_left, List.drop_left, hmatch]
  rfl

/-! ### Lines -/

omit [DecidableEq α] in
theorem lastOf_ne_newline {c : α} (hc : c ≠ newline) (hline : newline ∉ s) :
    ∃ d, lastOf (some c) s = some d ∧ d ≠ newline := by
  induction s generalizing c with
  | nil => exact ⟨c, rfl, hc⟩
  | cons d s ih =>
      obtain ⟨hd, hs⟩ := not_or.mp (mt List.mem_cons.mpr hline)
      exact ih (Ne.symm hd) hs

theorem findAll_skip (taken : List α) :
    findAll newline p taken.length previous (taken ++ s) =
      findAll newline p 0 (lastOf previous taken) s := by
  induction taken generalizing previous with
  | nil => rfl
  | cons c taken ih =>
      rw [List.length_cons, List.cons_append, findAll, ih, lastOf]

theorem findAll_of_none {c : α} (h : matchAt newline p previous (c :: s) = none) :
    findAll newline p 0 previous (c :: s) = findAll newline p 0 (some c) s := by
  rw [findAll, h]

theorem findAll_of_some {c : α} {groups : List (List α)} {length : Nat}
    (h : matchAt newline p previous (c :: s) = some (groups, length + 1)) :
    findAll newline p 0 previous (c :: s) = groups :: findAll newline p length (some c) s := by
  rw [findAll, h]

/-- Within a line nothing is found. -/
theorem findAll_restOfLine {c : α} {line : List α} (hc : c ≠ newline) (hline : newline ∉ line) :
    findAll newline (.lineStart :: p) 0 (some c) (line ++ newline :: s) =
      findAll newline (.lineStart :: p) 0 (some newline) s := by
  have hnone (s : List α) {c : α} (hc : c ≠ newline) :
      matchAt newline (.lineStart :: p) (some c) s = none := by
    rw [matchAt, if_neg]
    rintro (h | h)
    · cases h
    · exact hc (Option.some.inj h)
  induction line generalizing c with
  | nil => exact findAll_of_none (hnone _ hc)
  | cons d line ih =>
      obtain ⟨hd, hline⟩ := not_or.mp (mt List.mem_cons.mpr hline)
      rw [List.cons_append, findAll_of_none (hnone _ hc)]
      exact ih (Ne.symm hd) hline

/-- What a pattern finds in a line, whatever stands around it: nothing, or one
match, which is the whole line. -/
structure FoundIn (newline : α) (p : Pattern α) (line : List α)
    (found : Option (List (List α))) : Prop where
  oneLine : newline ∉ line
  nonempty : found.isSome = true → line ≠ []
  matches_eq : ∀ previous s, matchAt newline p previous (line ++ newline :: s) =
    found.map fun groups => (groups, line.length)

theorem FoundIn.findAll_eq {line : List α} {found : Option (List (List α))}
    (h : FoundIn newline p line found) (hstart : previous = none ∨ previous = some newline) :
    findAll newline (.lineStart :: p) 0 previous (line ++ newline :: s) =
      found.toList ++ findAll newline (.lineStart :: p) 0 (some newline) s := by
  have hmatch : matchAt newline (.lineStart :: p) previous (line ++ newline :: s) =
      found.map fun groups => (groups, line.length) := by
    rw [matchAt, if_pos hstart, h.matches_eq]
  cases line with
  | nil =>
      cases found with
      | none => exact findAll_of_none hmatch
      | some groups => exact absurd rfl (h.nonempty rfl)
  | cons c line =>
      obtain ⟨hc, hline⟩ := not_or.mp (mt List.mem_cons.mpr h.oneLine)
      rw [List.cons_append] at hmatch ⊢
      cases found with
      | none =>
          rw [findAll_of_none hmatch]
          exact findAll_restOfLine (Ne.symm hc) hline
      | some groups =>
          rw [findAll_of_some hmatch, findAll_skip]
          obtain ⟨d, hlast, hd⟩ := lastOf_ne_newline (Ne.symm hc) hline
          rw [hlast]
          exact congrArg (groups :: ·) (findAll_restOfLine hd (List.not_mem_nil))

/-- In a text of complete lines each line is read on its own. -/
theorem findAll_lines {ι : Type*} (text : ι → List α) (found : ι → Option (List (List α)))
    {items : List ι} (h : ∀ i ∈ items, FoundIn newline p (text i) (found i))
    (hstart : previous = none ∨ previous = some newline) :
    findAll newline (.lineStart :: p) 0 previous (items.flatMap fun i => text i ++ [newline]) =
      items.filterMap found := by
  induction items generalizing previous with
  | nil => rfl
  | cons i items ih =>
      rw [List.flatMap_cons, List.append_assoc, List.singleton_append,
        (h i (List.mem_cons_self ..)).findAll_eq hstart,
        ih (fun j hj => h j (List.mem_cons_of_mem _ hj)) (.inr rfl), List.filterMap_cons]
      cases found i <;> rfl

/-! ### Patterns that fit a line -/

/-- The pattern matches all of the line, wherever it stands. -/
def Covers (newline : α) (p : Pattern α) (line : List α) (groups : List (List α)) : Prop :=
  ∀ previous s, matchAt newline p previous (line ++ newline :: s) = some (groups, line.length)

/-- The class ends where the line goes on. -/
def EndsAt (newline : α) (cls : α → Bool) (line : List α) : Prop :=
  ∀ c, (line ++ [newline]).head? = some c → cls c = false

variable {line : List α} {groups : List (List α)} {cls : α → Bool} {least : Nat}

omit [DecidableEq α] in
theorem EndsAt.head? (h : EndsAt newline cls line) (s : List α) :
    ∀ c, (line ++ newline :: s).head? = some c → cls c = false := by
  intro c hc
  apply h c
  cases line with
  | nil => exact hc
  | cons d line => exact hc

omit [DecidableEq α] in
theorem endsAt_append {cs : List α} {c : α} (hhead : cs.head? = some c) (hc : cls c = false) :
    EndsAt newline cls (cs ++ line) := by
  intro d hd
  rw [List.append_assoc, List.head?_append, hhead, Option.some_or] at hd
  exact Option.some.inj hd ▸ hc

omit [DecidableEq α] in
theorem endsAt_nil (h : cls newline = false) : EndsAt newline cls [] := by
  intro c hc
  exact Option.some.inj hc ▸ h

namespace Covers

theorem nil : Covers newline [] [] [] := fun _ _ => rfl

theorem chars (cs : List α) (h : Covers newline p line groups) :
    Covers newline (cs.map .char ++ p) (cs ++ line) groups := by
  intro previous s
  rw [List.append_assoc, matchAt_chars, h, List.length_append]
  rfl

theorem many (htaken : ∀ c ∈ taken, cls c = true) (hend : EndsAt newline cls line)
    (hleast : least ≤ taken.length) (h : Covers newline p line groups) :
    Covers newline (.many cls least :: p) (taken ++ line) groups := by
  intro previous s
  rw [List.append_assoc, matchAt_many htaken (hend.head? s) hleast (h _ s), List.length_append]

theorem group (htaken : ∀ c ∈ taken, cls c = true) (hend : EndsAt newline cls line)
    (hleast : least ≤ taken.length) (h : Covers newline p line groups) :
    Covers newline (.group cls least :: p) (taken ++ line) (taken :: groups) := by
  intro previous s
  rw [List.append_assoc, matchAt_group htaken (hend.head? s) hleast (h _ s), List.length_append]

theorem foundIn (h : Covers newline p line groups) (hline : newline ∉ line) (hne : line ≠ []) :
    FoundIn newline p line (some groups) :=
  ⟨hline, fun _ => hne, h⟩

end Covers

/-- A line that does not start with the text that the pattern starts with. -/
theorem foundIn_none {cs : List α} (hcs : newline ∉ cs) (hline : newline ∉ line)
    (h : ¬ cs <+: line) : FoundIn newline (cs.map .char ++ p) line none := by
  refine ⟨hline, by simp, ?_⟩
  intro previous s
  apply matchAt_chars_eq_none
  intro hstarts
  obtain hlong | hshort := Nat.lt_or_ge line.length cs.length
  · have hwhole : line ++ [newline] <+: line ++ newline :: s := by
      rw [List.append_cons line newline s]
      exact List.prefix_append _ _
    have hlength : (line ++ [newline]).length ≤ cs.length := by
      rw [List.length_append, List.length_singleton]
      exact hlong
    exact hcs ((List.prefix_of_prefix_length_le hwhole hstarts hlength).subset (by simp))
  · exact h (List.prefix_of_prefix_length_le hstarts (List.prefix_append line _) hshort)

end Matching

end Regex
