import Petospa.Lib.CLiteral
import Petospa.Transport.Codec
import Petospa.Transport.Embedded
import Petospa.Tuner.Rounds
import Petospa.Tuner.WriteControl

/-!
# Which values survive the two transports

A value travels as one character. On the command line it arrives as one `char`
only if it is a seven-bit character; in the literal that `writeControl` generates
it must not start an escape sequence either.
-/

namespace Petospa

open Text

/-- The maps that hold one value of one function and kind. -/
def ChoiceMaps.single (kind : OptimisticChoiceKind) (fnNo value : Nat) : ChoiceMaps :=
  ChoiceMaps.empty.append kind fnNo [value + 1]

namespace ChoiceMaps

variable {kind : OptimisticChoiceKind} {fnNo : Nat} {xs ys : List Nat}

theorem append_injective {maps : ChoiceMaps}
    (h : maps.append kind fnNo xs = maps.append kind fnNo ys) : xs = ys := by
  have hpair := congrFun (congrFun h kind) fnNo
  simpa [append] using hpair

end ChoiceMaps

/-- The annotator's kind of a choice. -/
def OptimisticChoice.kindOf (oc : OptimisticChoice) : OptimisticChoiceKind :=
  .ofNumber oc.opportunityNo.toNat

/-- The control string of a single choice decodes to its value, and to nothing else. -/
def OptimisticChoice.SurvivesCommandLine (oc : OptimisticChoice) : Prop :=
  decode .empty (layout [] [oc]) = .ok (.single oc.kindOf oc.functionNo.toNat oc.value)

/-- What the annotator reads from a literal, given the text behind its opening quote. -/
def decodeLiteral (fnNo : Nat) (text : Str) : Option ChoiceMaps := do
  let bytes ← CLiteral.content text
  (scanEmbedded fnNo .main (bytes.map Int8.ofNat ++ [0]) .first .empty).toOption

/-- The literal that is generated for a single choice reads back as its value,
for a function with the given number. -/
def OptimisticChoice.SurvivesLiteral (stem : Str) (fnNo : Nat) (oc : OptimisticChoice) : Prop :=
  ∃ rest, writeControl stem [] [oc] =
      .ok (lit "static const char *" ++ declaration oc.cName ++ rest) ∧
    decodeLiteral fnNo rest = some (.single oc.kindOf fnNo oc.value)

/-! ### The command line -/

/-- The character of a value leaves the value alone exactly if it has seven bits. -/
theorem entries_eq_iff {oc : OptimisticChoice} (h : oc.Encodable) :
    entries oc.value = [oc.value + 1] ↔ oc.value < 80 := by
  constructor
  · intro heq
    by_contra hge
    obtain ⟨entry, hentry, hlarge⟩ := entries_of_le (by omega) h
    rw [heq, List.mem_singleton] at hentry
    have := lt_of_encodable h
    omega
  · exact entries_of_lt

theorem extend_empty_singleton {oc : OptimisticChoice} (h : oc.Codable) :
    ChoiceMaps.empty.extend [oc] =
      ChoiceMaps.empty.append oc.kindOf oc.functionNo.toNat (entries oc.value) :=
  ChoiceMaps.extend_singleton _ h

theorem survivesCommandLine_iff {oc : OptimisticChoice} (h : oc.Codable) :
    oc.SurvivesCommandLine ↔ oc.value < 80 := by
  have hempty : decode .empty [] = .ok .empty := rfl
  have hone : ∀ o ∈ [oc], o.Codable := by simpa using h
  have hdecode : oc.Encodable → decode .empty (layout [] [oc]) =
      .ok (ChoiceMaps.empty.append oc.kindOf oc.functionNo.toNat (entries oc.value)) := by
    intro hvalue
    rw [decode_layout hempty hone (by simpa using hvalue), extend_empty_singleton h]
  rw [OptimisticChoice.SurvivesCommandLine]
  constructor
  · intro hsurvives
    have hencodable : oc.Encodable := encodable_of_decode hsurvives oc List.mem_cons_self
    rw [hdecode hencodable] at hsurvives
    exact (entries_eq_iff hencodable).mp (ChoiceMaps.append_injective (Except.ok.inj hsurvives))
  · intro hlt
    rw [hdecode (OptimisticChoice.encodable_of_lt hlt), entries_of_lt hlt]
    rfl

/-! ### The literal -/

/-- What `writeControl` generates for a single choice, behind the opening quote. -/
def literalTail (stem : Str) (oc : OptimisticChoice) : Str :=
  ([ord '#', ord 'c', optionChar oc.opportunityNo.toNat] ++ [optionChar oc.value]) ++
    (ord '"' :: ord ';' :: newline :: keepAliveLine stem oc.cName)

theorem writeControl_singleton {oc : OptimisticChoice} (h : oc.Codable) (hfixed : oc.fixed = true)
    (stem : Str) : writeControl stem [] [oc] =
      .ok (lit "static const char *" ++ declaration oc.cName ++ literalTail stem oc) := by
  have hpos : 0 ≤ oc.opportunityNo := by linarith [h.one_le_kind]
  have hcollect : collect [oc] .empty = .ok (Dict.empty.modify oc.cName .empty
      fun c2cs => c2cs.modify oc.opportunityNo [] (· ++ [optionChar oc.value])) := by
    rw [collect, if_neg (by omega), if_pos hfixed, collect]
  have hglue : glue [(oc.opportunityNo, [optionChar oc.value])] [] [] =
      .ok ([ord '#', ord 'c', optionChar oc.opportunityNo.toNat] ++ [optionChar oc.value]) := by
    rw [glue, if_pos hpos, glue]
    rfl
  have htext : annotationText stem (oc.cName, (Dict.empty : KindStrings).modify oc.opportunityNo []
      (· ++ [optionChar oc.value])) =
      .ok (lit "static const char *" ++ declaration oc.cName ++ literalTail stem oc) := by
    have hentries : ((Dict.empty : KindStrings).modify oc.opportunityNo []
        (· ++ [optionChar oc.value])).entries = [(oc.opportunityNo, [optionChar oc.value])] := rfl
    rw [annotationText, hentries, hglue]
    have hend : lit "\";" = [ord '"', ord ';'] := rfl
    simp [bind, Except.bind, pure, Except.pure, declarationLine, literalTail, hend]
  have hgenerated : ((Dict.empty : FunctionStrings).modify oc.cName .empty
      fun c2cs => c2cs.modify oc.opportunityNo [] (· ++ [optionChar oc.value])).entries =
      [(oc.cName, (Dict.empty : KindStrings).modify oc.opportunityNo []
        (· ++ [optionChar oc.value]))] := rfl
  have hlines : readlines [] = [] := rfl
  simp [writeControl, hcollect, hlines, readOld, hgenerated, htext, bind, Except.bind, pure,
    Except.pure]

theorem plain_optionChar {v : Nat} (hv : v ≠ 44) : CLiteral.Plain (optionChar v) := by
  change 48 + v ≠ 10 ∧ 48 + v ≠ 13 ∧ 48 + v ≠ 34 ∧ 48 + v ≠ 92
  omega

theorem plain_kindHeader {kind : Nat} (hkind : kind ≤ 22) :
    ∀ c ∈ [ord '#', ord 'c', optionChar kind], CLiteral.Plain c := by
  intro c hc
  simp only [List.mem_cons, List.not_mem_nil, or_false] at hc
  rcases hc with rfl | rfl | rfl
  · decide
  · decide
  · exact plain_optionChar (by omega)

theorem plain_value {kind v : Nat} (hkind : kind ≤ 22) (hv : v ≠ 44) :
    ∀ c ∈ [ord '#', ord 'c', optionChar kind] ++ [optionChar v], CLiteral.Plain c := by
  intro c hc
  rcases List.mem_append.mp hc with hc | hc
  · exact plain_kindHeader hkind c hc
  · obtain rfl := List.mem_singleton.mp hc
    exact plain_optionChar hv

theorem OptimisticChoice.Codable.toNat_le {oc : OptimisticChoice} (h : oc.Codable) :
    oc.opportunityNo.toNat ≤ 22 := by
  have := h.kind_le
  omega

/-- A value whose character is a backslash takes the closing quote away. -/
theorem content_backslash {oc : OptimisticChoice} (h : oc.Codable) (hv : oc.value = 44)
    (stem : Str) : CLiteral.content (literalTail stem oc) = none := by
  have hkind := h.toNat_le
  have hback : CLiteral.spelling false ([optionChar oc.value] ++
      (ord '"' :: ord ';' :: newline :: keepAliveLine stem oc.cName)) = none := by
    rw [hv]
    rfl
  have hnone : CLiteral.spelling false (literalTail stem oc) = none := by
    rw [literalTail, List.append_assoc, CLiteral.spelling_append (plain_kindHeader hkind),
      hback]
    rfl
  rw [CLiteral.content, hnone]
  rfl

/-- Without a backslash the literal has the bytes of the value behind its header. -/
theorem content_literalTail {oc : OptimisticChoice} (h : oc.Codable) (hv : oc.value ≠ 44)
    {bytes : List Nat} (hbytes : utf8Char (optionChar oc.value) = some bytes)
    (hplain : ∀ byte ∈ bytes, byte ≠ ord '\\') (stem : Str) :
    CLiteral.content (literalTail stem oc) =
      some ([ord '#', ord 'c', optionChar oc.opportunityNo.toNat] ++ bytes) := by
  have hkind := h.toNat_le
  have hheader : utf8 [ord '#', ord 'c', optionChar oc.opportunityNo.toNat] =
      some [ord '#', ord 'c', optionChar oc.opportunityNo.toNat] := by
    refine utf8_ascii fun c hc => ?_
    simp only [List.mem_cons, List.not_mem_nil, or_false] at hc
    have h35 : ord '#' = 35 := rfl
    have h99 : ord 'c' = 99 := rfl
    have hchar : optionChar oc.opportunityNo.toNat = 48 + oc.opportunityNo.toNat := rfl
    omega
  have hvalue : utf8 [optionChar oc.value] = some bytes := by simp [utf8, hbytes]
  refine CLiteral.content_of_plain (plain_value hkind hv) (utf8_append hheader hvalue) ?_ _
  intro c hc
  rcases List.mem_append.mp hc with hc | hc
  · exact (plain_kindHeader hkind c hc).2.2.2
  · exact hplain c hc

/-- What the annotator reads from the bytes of a value behind a header. -/
theorem scanEmbedded_value {oc : OptimisticChoice} (h : oc.Codable) {bytes : List Nat}
    (hbytes : fsencodeChar (optionChar oc.value) = some bytes) (fnNo : Nat) :
    scanEmbedded fnNo .main
      (([ord '#', ord 'c', optionChar oc.opportunityNo.toNat] ++ bytes).map Int8.ofNat ++ [0])
      .first .empty = .ok (ChoiceMaps.empty.append oc.kindOf fnNo (entries oc.value)) := by
  have hkind := h.toNat_le
  have hnonempty : ([0] : List CChar) ≠ [] := List.cons_ne_nil _ _
  rw [List.map_append, List.append_assoc, scanEmbedded_kindHeader hkind,
    scanEmbedded_bytes (fun byte => toInt_valueByte hbytes) hnonempty, scanEmbedded, if_pos rfl,
    entries, hbytes]
  rfl

/-- A literal without a backslash reads back as the entries of its value. -/
theorem decodeLiteral_of_bytes {oc : OptimisticChoice} (h : oc.Codable) (hv : oc.value ≠ 44)
    {bytes : List Nat} (hbytes : utf8Char (optionChar oc.value) = some bytes) (stem : Str)
    (fnNo : Nat) : decodeLiteral fnNo (literalTail stem oc) =
      some (ChoiceMaps.empty.append oc.kindOf fnNo (entries oc.value)) := by
  obtain ⟨hencoded, hcases⟩ := utf8Char_cases hbytes
  have hplain : ∀ byte ∈ bytes, byte ≠ ord '\\' := by
    intro byte hbyte
    cases hcases with
    | inl hself =>
        rw [hself, List.mem_singleton] at hbyte
        rw [hbyte]
        exact (plain_optionChar hv).2.2.2
    | inr hlarge =>
        have := hlarge byte hbyte
        change byte ≠ 92
        omega
  rw [decodeLiteral, content_literalTail h hv hbytes hplain]
  exact congrArg Except.toOption (scanEmbedded_value h hencoded fnNo)

/-- A value without bytes in a file cannot be written. -/
theorem decodeLiteral_of_no_bytes {oc : OptimisticChoice} (h : oc.Codable) (hv : oc.value ≠ 44)
    (hbytes : utf8Char (optionChar oc.value) = none) (stem : Str) (fnNo : Nat) :
    decodeLiteral fnNo (literalTail stem oc) = none := by
  have hkind := h.toNat_le
  have hspelling : CLiteral.spelling false (literalTail stem oc) =
      some ([ord '#', ord 'c', optionChar oc.opportunityNo.toNat] ++ [optionChar oc.value]) := by
    have hend : CLiteral.spelling false
        (ord '"' :: ord ';' :: newline :: keepAliveLine stem oc.cName) = some [] := rfl
    rw [literalTail, CLiteral.spelling_append (plain_value hkind hv), hend]
    simp
  have hnone := utf8_eq_none (t := [ord '#', ord 'c', optionChar oc.opportunityNo.toNat] ++
    [optionChar oc.value]) (List.mem_append_right _ List.mem_cons_self) hbytes
  simp only [decodeLiteral, CLiteral.content, hspelling, hnone, Option.bind_eq_bind,
    Option.bind_some, Option.bind_none]

theorem survivesLiteral_iff {oc : OptimisticChoice} (h : oc.Codable) (hfixed : oc.fixed = true)
    (stem : Str) (fnNo : Nat) :
    oc.SurvivesLiteral stem fnNo ↔ oc.value < 80 ∧ oc.value ≠ 44 := by
  have hread : oc.SurvivesLiteral stem fnNo ↔ decodeLiteral fnNo (literalTail stem oc) =
      some (.single oc.kindOf fnNo oc.value) := by
    rw [OptimisticChoice.SurvivesLiteral, writeControl_singleton h hfixed]
    constructor
    · rintro ⟨rest, htext, hsurvives⟩
      obtain rfl := List.append_cancel_left (Except.ok.inj htext)
      exact hsurvives
    · exact fun hsurvives => ⟨_, rfl, hsurvives⟩
  rw [hread]
  by_cases hv : oc.value = 44
  · simp [decodeLiteral, content_backslash h hv, hv]
  · cases hbytes : utf8Char (optionChar oc.value) with
    | none =>
        rw [decodeLiteral_of_no_bytes h hv hbytes]
        have hge : ¬ oc.value < 80 := by
          intro hlt
          have hplain : ¬ (0xD800 ≤ 48 + oc.value ∧ 48 + oc.value ≤ 0xDFFF) := by omega
          have hascii : 48 + oc.value < 0x80 := by omega
          have hsome : utf8Char (48 + oc.value) = some [48 + oc.value] := by
            rw [utf8Char, if_neg hplain, fsencodeChar, if_pos hascii]
          exact absurd (hsome.symm.trans hbytes) (Option.some_ne_none _)
        simp [hge]
    | some bytes =>
        have hencodable : oc.Encodable :=
          Option.isSome_of_mem (utf8Char_cases hbytes).1
        rw [decodeLiteral_of_bytes h hv hbytes, Option.some_inj]
        constructor
        · intro heq
          exact ⟨(entries_eq_iff hencodable).mp (ChoiceMaps.append_injective heq), hv⟩
        · intro hrange
          rw [entries_of_lt hrange.1]
          rfl

/-- A value survives the command line if its character has seven bits, and the
source file if it is moreover not the backslash. -/
theorem survives_iff {oc : OptimisticChoice} (h : oc.Codable) (hfixed : oc.fixed = true)
    (stem : Str) (fnNo : Nat) :
    (oc.SurvivesCommandLine ↔ oc.value < 80) ∧
    (oc.SurvivesLiteral stem fnNo ↔ oc.value < 80 ∧ oc.value ≠ 44) ∧
    (oc.SurvivesCommandLine ∧ oc.SurvivesLiteral stem fnNo ↔ oc.value < 80 ∧ oc.value ≠ 44) := by
  have hline := survivesCommandLine_iff h
  have hliteral := survivesLiteral_iff h hfixed stem fnNo
  refine ⟨hline, hliteral, ?_⟩
  rw [hline, hliteral]
  constructor
  · exact fun hboth => hboth.2
  · exact fun hrange => ⟨hrange.1, hrange⟩

/-- The settled choice for a branch on a group of constants. -/
def branchOn (numChoices value : Nat) (h : 0 < numChoices) : OptimisticChoice :=
  { OptimisticChoice.new numChoices 17 0 (lit "CFG") (lit "BranchTrg") (lit "x") (lit "f") 0 h with
    fixed := true, value := value }

theorem branchOn_codable (numChoices value : Nat) (h : 0 < numChoices) :
    (branchOn numChoices value h).Codable :=
  ⟨Int.le_refl 0, (by decide : (0 : Int) < 2 ^ 31), (by decide : (1 : Int) ≤ 17),
    (by decide : (17 : Int) ≤ 22)⟩

theorem survives_iff_third_constant :
    ((branchOn 4 3 (Nat.succ_pos 3)).SurvivesCommandLine ↔ 3 < 80) ∧
    ((branchOn 4 3 (Nat.succ_pos 3)).SurvivesLiteral (lit "main") 0 ↔ 3 < 80 ∧ 3 ≠ 44) ∧
    ((branchOn 4 3 (Nat.succ_pos 3)).SurvivesCommandLine ∧
      (branchOn 4 3 (Nat.succ_pos 3)).SurvivesLiteral (lit "main") 0 ↔ 3 < 80 ∧ 3 ≠ 44) :=
  survives_iff (branchOn_codable 4 3 (Nat.succ_pos 3)) rfl (lit "main") 0

/-- Neither transport carries every offered value: on the command line the last
of 80 constants arrives as two bytes, and the last of 44 constants leaves the
literal without its end. -/
theorem not_all_survive :
    (¬ ∀ (numChoices value : Nat) (h : value < numChoices),
      (branchOn numChoices value (Nat.zero_lt_of_lt h)).SurvivesCommandLine) ∧
    ¬ ∀ (numChoices value : Nat) (h : value < numChoices),
      (branchOn numChoices value (Nat.zero_lt_of_lt h)).SurvivesLiteral (lit "main") 0 := by
  constructor
  · intro hall
    have hline := hall 81 80 (Nat.lt_succ_self 80)
    rw [survivesCommandLine_iff (branchOn_codable 81 80 _)] at hline
    exact Nat.lt_irrefl 80 hline
  · intro hall
    have hliteral := hall 45 44 (Nat.lt_succ_self 44)
    rw [survivesLiteral_iff (branchOn_codable 45 44 _) rfl] at hliteral
    exact hliteral.2 rfl

end Petospa
