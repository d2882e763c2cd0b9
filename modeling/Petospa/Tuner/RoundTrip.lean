import Petospa.Lib.Except
import Petospa.Tuner.Serializable

/-!
# What comes back from `to_json` and `from_json`

Every attribute of an object is written, but only the parameters of its
constructor can be read. So an object comes back if its class has no further
attribute and all that is below it comes back.
-/

namespace Petospa.Serializable

open Text

variable {F : Type}

/-! ### Public fields -/

mutual

/-- The public fields of a value, recursively. -/
def publicPart : Value F → Value F
  | .list items => .list (publicItems items)
  | .tuple items => .tuple (publicItems items)
  | .dict entries => .dict (publicEntries entries)
  | .object c attributes => .object c (publicAttributes attributes)
  | v => v

def publicItems : List (Value F) → List (Value F)
  | [] => []
  | v :: items => publicPart v :: publicItems items

def publicEntries : List (Str × Value F) → List (Str × Value F)
  | [] => []
  | (k, v) :: entries => (k, publicPart v) :: publicEntries entries

def publicAttributes : List (Str × Value F) → List (Str × Value F)
  | [] => []
  | (k, v) :: attributes =>
      if isPublic k then (k, publicPart v) :: publicAttributes attributes
      else publicAttributes attributes

end

theorem publicItems_eq_map (items : List (Value F)) : publicItems items = items.map publicPart := by
  induction items with
  | nil => rfl
  | cons v items ih => rw [publicItems, ih, List.map_cons]

theorem publicPart_list (items : List (Value F)) :
    publicPart (.list items) = .list (items.map publicPart) := by
  rw [publicPart, publicItems_eq_map]

theorem publicEntries_eq_map (entries : List (Str × Value F)) :
    publicEntries entries = entries.map fun e => (e.1, publicPart e.2) := by
  induction entries with
  | nil => rfl
  | cons e entries ih =>
      obtain ⟨k, v⟩ := e
      rw [publicEntries, ih, List.map_cons]

/-- There is a NaN in a public field, recursively. -/
inductive HasNaN : Value F → Prop where
  | nan : HasNaN (.float .nan)
  | list {items : List (Value F)} {v : Value F} (hv : v ∈ items) (h : HasNaN v) :
      HasNaN (.list items)
  | tuple {items : List (Value F)} {v : Value F} (hv : v ∈ items) (h : HasNaN v) :
      HasNaN (.tuple items)
  | dict {entries : List (Str × Value F)} {e : Str × Value F} (he : e ∈ entries)
      (h : HasNaN e.2) : HasNaN (.dict entries)
  | object {c : ClassName} {attributes : List (Str × Value F)} {e : Str × Value F}
      (he : e ∈ attributes) (hpublic : isPublic e.1 = true) (h : HasNaN e.2) :
      HasNaN (.object c attributes)

theorem hasNaN_list {items : List (Value F)} :
    HasNaN (.list items) ↔ ∃ v ∈ items, HasNaN v := by
  constructor
  · intro h
    cases h with
    | list hv h => exact ⟨_, hv, h⟩
  · rintro ⟨v, hv, h⟩
    exact .list hv h

theorem hasNaN_dict {entries : List (Str × Value F)} :
    HasNaN (.dict entries) ↔ ∃ e ∈ entries, HasNaN e.2 := by
  constructor
  · intro h
    cases h with
    | dict he h => exact ⟨_, he, h⟩
  · rintro ⟨e, he, h⟩
    exact .dict he h

/-- In an object the public fields count. -/
theorem hasNaN_object {c : ClassName} {keys : List Str} {vs : List (Value F)}
    {hidden : List (Str × Value F)} (hlength : keys.length = vs.length)
    (hkeys : ∀ k ∈ keys, isPublic k = true) (hhidden : ∀ e ∈ hidden, isPublic e.1 = false) :
    HasNaN (.object c (keys.zip vs ++ hidden)) ↔ ∃ v ∈ vs, HasNaN v := by
  constructor
  · intro h
    cases h with
    | object he hpublic h =>
        cases List.mem_append.mp he with
        | inl he => exact ⟨_, (List.of_mem_zip he).2, h⟩
        | inr he => exact absurd hpublic (by simp [hhidden _ he])
  · rintro ⟨v, hv, h⟩
    have hvalues : (keys.zip vs).map Prod.snd = vs := List.map_snd_zip (Nat.le_of_eq hlength.symm)
    obtain ⟨e, he, rfl⟩ := List.mem_map.mp (hvalues ▸ hv)
    exact .object (List.mem_append_left _ he) (hkeys e.1 (List.of_mem_zip he).1) h

/-! ### Dictionaries -/

/-- Setting keys one after the other: each adds at most one entry, and if all do
they stand in their order. -/
theorem foldl_modifyEntries (pairs : List (Str × Value F)) : ∀ entries : List (Str × Value F),
    (pairs.foldl (fun entries e => Dict.modifyEntries e.1 e.2 (fun _ => e.2) entries)
        entries).length ≤ entries.length + pairs.length ∧
      (((∀ e ∈ pairs, e.1 ∉ entries.map Prod.fst) ∧ (pairs.map Prod.fst).Nodup ∨
        entries.length + pairs.length ≤
          (pairs.foldl (fun entries e => Dict.modifyEntries e.1 e.2 (fun _ => e.2) entries)
            entries).length) →
        pairs.foldl (fun entries e => Dict.modifyEntries e.1 e.2 (fun _ => e.2) entries) entries =
          entries ++ pairs) := by
  induction pairs with
  | nil => simp
  | cons e pairs ih =>
      intro entries
      obtain ⟨hle, heq⟩ := ih (Dict.modifyEntries e.1 e.2 (fun _ => e.2) entries)
      have hkeys := Dict.keys_modifyEntries e.1 e.2 (fun _ => e.2) entries
      have hlength := congrArg List.length hkeys
      rw [List.length_map] at hlength
      rw [List.foldl_cons, List.length_cons]
      by_cases hmem : e.1 ∈ entries.map Prod.fst
      · rw [Dict.insertKey, if_pos hmem, List.length_map] at hlength
        refine ⟨by omega, ?_⟩
        rintro (⟨hfresh, -⟩ | hlong)
        · exact absurd hmem (hfresh e List.mem_cons_self)
        · omega
      · have hnew : Dict.modifyEntries e.1 e.2 (fun _ => e.2) entries = entries ++ [(e.1, e.2)] :=
          Dict.modifyEntries_of_notMem hmem
        rw [hnew] at hle heq ⊢
        rw [List.length_append, List.length_singleton] at hle heq
        refine ⟨by omega, fun h => ?_⟩
        rw [heq ?_, List.append_assoc, List.singleton_append]
        cases h with
        | inl hfresh =>
            obtain ⟨hfresh, hnodup⟩ := hfresh
            obtain ⟨hhead, htail⟩ := List.nodup_cons.mp hnodup
            refine .inl ⟨fun e' he' => ?_, htail⟩
            rw [List.map_append, List.mem_append, not_or]
            refine ⟨hfresh e' (List.mem_cons_of_mem _ he'), fun hsame => hhead ?_⟩
            rw [← List.mem_singleton.mp hsame]
            exact List.mem_map_of_mem he'
        | inr hlong => exact .inr (by omega)

/-- A dictionary with distinct keys is read as it was written. -/
theorem dictOf_eq_self {pairs : List (Str × Value F)} (h : (pairs.map Prod.fst).Nodup) :
    dictOf pairs = pairs :=
  (foldl_modifyEntries pairs []).2 (.inl ⟨fun _ _ => List.not_mem_nil, h⟩)

/-- A dictionary that has as many entries as were written is what was written. -/
theorem dictOf_eq_self_of_length {pairs : List (Str × Value F)}
    (h : pairs.length ≤ (dictOf pairs).length) : dictOf pairs = pairs :=
  (foldl_modifyEntries pairs []).2 (.inr (by simpa [dictOf] using h))

theorem lookup_eq_none_iff {key : Str} {entries : List (Str × Value F)} :
    lookup key entries = none ↔ key ∉ entries.map Prod.fst := by
  simp only [lookup, Option.map_eq_none_iff, List.find?_eq_none, decide_eq_true_eq, List.mem_map,
    not_exists, not_and]

/-! ### Fields -/

/-- Are all elements strings? -/
def strIterable (v : Value F) : Bool := v.elements?.any (·.all Value.isStr)

theorem isStr_publicPart (v : Value F) : (publicPart v).isStr = v.isStr := by
  cases v <;> simp [publicPart, Value.isStr]

theorem all_isStr_publicItems (items : List (Value F)) :
    (publicItems items).all Value.isStr = items.all Value.isStr := by
  induction items with
  | nil => rfl
  | cons v items ih => rw [publicItems, List.all_cons, List.all_cons, isStr_publicPart, ih]

theorem strIterable_publicPart (v : Value F) : strIterable (publicPart v) = strIterable v := by
  cases v with
  | list items => exact all_isStr_publicItems items
  | tuple items => exact all_isStr_publicItems items
  | dict entries =>
      have hkeys : ∀ es : List (Str × Value F), strIterable (.dict es) = true := by
        simp [strIterable, Value.elements?, Value.isStr]
      rw [publicPart, hkeys, hkeys]
  | none | bool _ | int _ | float _ | str _ | object _ _ =>
      simp [strIterable, publicPart, Value.elements?]

/-- Is it a pair? -/
def IsPair (v : Value F) : Prop := ∃ attributes, v = .object .inputOutputPair attributes

theorem ioPair_eq_ok {p p' : Value F} (h : Benchmark.ioPair p = .ok p') : p' = p ∧ IsPair p := by
  unfold Benchmark.ioPair at h
  split at h
  · rename_i attributes
    exact ⟨(Except.ok.inj h).symm, attributes, rfl⟩
  · cases h
  · cases h

/-- Pairs are appended as they are. -/
theorem appendAll_ioPair {pairs v : Value F}
    (h : Benchmark.appendAll pairs Benchmark.ioPair = .ok v) :
    ∃ items, pairs.elements? = some items ∧ v = .list items ∧ ∀ p ∈ items, IsPair p := by
  unfold Benchmark.appendAll at h
  split at h
  · rename_i items hitems
    simp only [Except.bind_eq_ok_iff, Except.pure_eq_ok_iff] at h
    obtain ⟨items', hmap, rfl⟩ := h
    have hforall := Except.forall₂_of_mapM_eq_ok hmap
    have hsame : items' = items ∧ ∀ p ∈ items, IsPair p := by
      clear hitems hmap
      induction hforall with
      | nil => exact ⟨rfl, by simp⟩
      | cons hp _ ih =>
          obtain ⟨rfl, hpair⟩ := ioPair_eq_ok hp
          exact ⟨by rw [ih.1], List.forall_mem_cons.mpr ⟨hpair, ih.2⟩⟩
    exact ⟨items, hitems, by rw [hsame.1], hsame.2⟩
  · cases h

theorem appendAll_of_isPair {pairs : List (Value F)} (h : ∀ p ∈ pairs, IsPair p) :
    Benchmark.appendAll (.list pairs) Benchmark.ioPair = .ok (.list pairs) := by
  have hpairs : pairs.mapM Benchmark.ioPair = .ok pairs := by
    induction pairs with
    | nil => rfl
    | cons p pairs ih =>
        obtain ⟨attributes, rfl⟩ := h p List.mem_cons_self
        simp [List.mapM_cons, Benchmark.ioPair, ih fun q hq => h q (List.mem_cons_of_mem _ hq)]
  simp [Benchmark.appendAll, Value.elements?, hpairs]

/-- Pairs are read as pairs. -/
theorem isPair_of_publicPart {p p' : Value F} (h : publicPart p' = publicPart p) (hp : IsPair p) :
    IsPair p' := by
  obtain ⟨attributes, rfl⟩ := hp
  rw [publicPart] at h
  cases p' with
  | object c attributes' =>
      rw [publicPart] at h
      obtain ⟨rfl, -⟩ := Value.object.inj h
      exact ⟨attributes', rfl⟩
  | _ =>
      simp only [publicPart] at h
      cases h

section Fields

variable (a b c d e f g h i : Value F)

theorem forall₂_six {R : Value F → Value F → Prop} {l : List (Value F)}
    (hl : List.Forall₂ R [a, b, c, d, e, f] l) :
    ∃ a' b' c' d' e' f', l = [a', b', c', d', e', f'] := by
  match l, hl.length_eq with
  | [a', b', c', d', e', f'], _ => exact ⟨a', b', c', d', e', f', rfl⟩

/-- The public attributes of a benchmark. -/
def benchmarkKeys : List Str := [lit "name", lit "source_files", lit "input_output_pairs",
  lit "options", lit "executable", lit "make_cmd", lit "verify_cmd", lit "verify_cmd_timeout"]

theorem publicPart_benchmark : publicPart (Benchmark.object a b c d e f g h i) =
    .object .benchmark (benchmarkKeys.zip ([a, b, c, d, e, f, g, h].map publicPart)) := rfl

theorem map_eq_of_publicPart_benchmark {a' b' c' d' e' f' g' h' i' : Value F}
    (hsame : publicPart (Benchmark.object a' b' c' d' e' f' g' h' i') =
      publicPart (Benchmark.object a b c d e f g h i)) :
    [a', b', c', d', e', f', g', h'].map publicPart =
      [a, b, c, d, e, f, g, h].map publicPart := by
  rw [publicPart_benchmark, publicPart_benchmark] at hsame
  have hvalues := congrArg (List.map Prod.snd) (Value.object.inj hsame).2
  exact hvalues

end Fields

/-! ### What is read for a value -/

/-- A value is written, and this is what is read. -/
def ReadAs [FloatFormat F] (now : Clock F) (v v' : Value F) : Prop :=
  ∃ document, encode v = .ok document ∧ decode now document.readBack = .ok v'

/-- An entry of a dictionary is written, and this is what is read. -/
def ReadEntry [FloatFormat F] (now : Clock F) (e e' : Str × Value F) : Prop :=
  e'.1 = Json.joined e.1 ∧ ReadAs now e.2 e'.2

section Reading

variable [FloatFormat F] {now : Clock F}

theorem readAs_items {items items' : List (Value F)} :
    (∃ documents, encodeItems items = .ok documents ∧
      decodeItems now (Json.readBackItems documents) = .ok items') ↔
    List.Forall₂ (ReadAs now) items items' := by
  induction items generalizing items' with
  | nil =>
      rw [List.forall₂_nil_left_iff]
      constructor
      · rintro ⟨documents, hwritten, hread⟩
        obtain rfl := Except.ok.inj hwritten
        exact (Except.ok.inj hread).symm
      · rintro rfl
        exact ⟨[], rfl, rfl⟩
  | cons v items ih =>
      rw [List.forall₂_cons_left_iff]
      constructor
      · rintro ⟨documents, hwritten, hread⟩
        simp only [encodeItems, Except.bind_eq_ok_iff, Except.pure_eq_ok_iff] at hwritten
        obtain ⟨d, hd, ds, hds, rfl⟩ := hwritten
        simp only [Json.readBackItems, decodeItems, Except.bind_eq_ok_iff,
          Except.pure_eq_ok_iff] at hread
        obtain ⟨v', hv', vs', hvs', rfl⟩ := hread
        exact ⟨v', vs', ⟨d, hd, hv'⟩, ih.mp ⟨ds, hds, hvs'⟩, rfl⟩
      · rintro ⟨v', vs', ⟨d, hd, hv'⟩, hrest, rfl⟩
        obtain ⟨ds, hds, hvs'⟩ := ih.mpr hrest
        exact ⟨d :: ds, by simp [encodeItems, hd, hds],
          by simp [Json.readBackItems, decodeItems, hv', hvs']⟩

theorem readAs_entries {entries entries' : List (Str × Value F)} :
    (∃ members, encodeEntries entries = .ok members ∧
      decodeMembers now (Json.readBackMembers members) = .ok entries') ↔
    List.Forall₂ (ReadEntry now) entries entries' := by
  induction entries generalizing entries' with
  | nil =>
      rw [List.forall₂_nil_left_iff]
      constructor
      · rintro ⟨members, hwritten, hread⟩
        obtain rfl := Except.ok.inj hwritten
        exact (Except.ok.inj hread).symm
      · rintro rfl
        exact ⟨[], rfl, rfl⟩
  | cons e entries ih =>
      obtain ⟨k, v⟩ := e
      rw [List.forall₂_cons_left_iff]
      constructor
      · rintro ⟨members, hwritten, hread⟩
        simp only [encodeEntries, Except.bind_eq_ok_iff, Except.pure_eq_ok_iff] at hwritten
        obtain ⟨d, hd, ds, hds, rfl⟩ := hwritten
        simp only [Json.readBackMembers, decodeMembers, Except.bind_eq_ok_iff,
          Except.pure_eq_ok_iff] at hread
        obtain ⟨v', hv', es', hes', rfl⟩ := hread
        exact ⟨_, es', ⟨rfl, d, hd, hv'⟩, ih.mp ⟨ds, hds, hes'⟩, rfl⟩
      · rintro ⟨⟨k', v'⟩, es', ⟨hk', d, hd, hv'⟩, hrest, rfl⟩
        obtain ⟨ds, hds, hes'⟩ := ih.mpr hrest
        obtain rfl : k' = Json.joined k := hk'
        exact ⟨(k, d) :: ds, by simp [encodeEntries, hd, hds],
          by simp [Json.readBackMembers, decodeMembers, hv', hes']⟩

theorem readAs_list {items : List (Value F)} {v' : Value F} : ReadAs now (.list items) v' ↔
    ∃ items', List.Forall₂ (ReadAs now) items items' ∧ v' = .list items' := by
  constructor
  · rintro ⟨document, hwritten, hread⟩
    simp only [encode, Except.bind_eq_ok_iff, Except.pure_eq_ok_iff] at hwritten
    obtain ⟨documents, hdocuments, rfl⟩ := hwritten
    simp only [Json.readBack, decode, Except.bind_eq_ok_iff, Except.pure_eq_ok_iff] at hread
    obtain ⟨items', hitems', rfl⟩ := hread
    exact ⟨items', readAs_items.mp ⟨documents, hdocuments, hitems'⟩, rfl⟩
  · rintro ⟨items', hitems, rfl⟩
    obtain ⟨documents, hdocuments, hitems'⟩ := readAs_items.mpr hitems
    exact ⟨.arr documents, by simp [encode, hdocuments], by simp [Json.readBack, decode, hitems']⟩

/-- A tuple is read as a list. -/
theorem readAs_tuple {items : List (Value F)} {v' : Value F} (h : ReadAs now (.tuple items) v') :
    ∃ items', v' = .list items' := by
  obtain ⟨document, hwritten, hread⟩ := h
  simp only [encode, Except.bind_eq_ok_iff, Except.pure_eq_ok_iff] at hwritten
  obtain ⟨documents, -, rfl⟩ := hwritten
  simp only [Json.readBack, decode, Except.bind_eq_ok_iff, Except.pure_eq_ok_iff] at hread
  obtain ⟨items', -, rfl⟩ := hread
  exact ⟨items', rfl⟩

theorem readAs_dict {entries : List (Str × Value F)} {v' : Value F} :
    ReadAs now (.dict entries) v' ↔ ∃ entries', List.Forall₂ (ReadEntry now) entries entries' ∧
      classDecoder now (dictOf entries') = .ok v' := by
  constructor
  · rintro ⟨document, hwritten, hread⟩
    simp only [encode, Except.bind_eq_ok_iff, Except.pure_eq_ok_iff] at hwritten
    obtain ⟨members, hmembers, rfl⟩ := hwritten
    simp only [Json.readBack, decode, Except.bind_eq_ok_iff] at hread
    obtain ⟨entries', hentries', hdecoder⟩ := hread
    exact ⟨entries', readAs_entries.mp ⟨members, hmembers, hentries'⟩, hdecoder⟩
  · rintro ⟨entries', hentries, hdecoder⟩
    obtain ⟨members, hmembers, hentries'⟩ := readAs_entries.mpr hentries
    exact ⟨.obj members, by simp [encode, hmembers],
      by simp [Json.readBack, decode, hentries', hdecoder]⟩

/-- Fixed keys come back, so the values can be looked at alone. -/
theorem readEntry_zip {keys : List Str} {vs : List (Value F)} {entries' : List (Str × Value F)}
    (hplain : keys.map Json.joined = keys) (hlength : keys.length = vs.length) :
    List.Forall₂ (ReadEntry now) (keys.zip vs) entries' ↔
      ∃ vs', List.Forall₂ (ReadAs now) vs vs' ∧ entries' = keys.zip vs' := by
  induction keys generalizing vs entries' with
  | nil =>
      obtain rfl := List.length_eq_zero_iff.mp hlength.symm
      simp [List.forall₂_nil_left_iff]
  | cons key keys ih =>
      cases vs with
      | nil => cases hlength
      | cons v vs =>
          obtain ⟨hkey, hkeys⟩ := List.cons.inj hplain
          have ih' : ∀ {entries'}, List.Forall₂ (ReadEntry now) (keys.zip vs) entries' ↔
              ∃ vs', List.Forall₂ (ReadAs now) vs vs' ∧ entries' = keys.zip vs' :=
            ih hkeys (Nat.succ.inj hlength)
          simp only [List.zip_cons_cons, List.forall₂_cons_left_iff, ih']
          constructor
          · rintro ⟨⟨k', v'⟩, _, ⟨hk', hv'⟩, ⟨vs', hvs', rfl⟩, rfl⟩
            obtain rfl : k' = key := hk'.trans hkey
            exact ⟨v' :: vs', ⟨v', vs', hv', hvs', rfl⟩, rfl⟩
          · rintro ⟨_, ⟨v', vs', hv', hvs', rfl⟩, rfl⟩
            exact ⟨(key, v'), keys.zip vs', ⟨hkey.symm, hv'⟩, ⟨vs', hvs', rfl⟩, rfl⟩

/-- A constructor makes an object of its class. -/
theorem init_object {c : ClassName} {arguments : List (Value F)} {v : Value F}
    (h : c.init now arguments = .ok v) : ∃ attributes, v = .object c attributes := by
  unfold ClassName.init at h
  split at h
  · rename_i path options onlyFunctions outputFile
    unfold Sourcefile.init at h
    split at h
    · split at h
      · exact ⟨_, (Except.ok.inj h).symm⟩
      · cases h
    · cases h
  · exact ⟨_, (Except.ok.inj h).symm⟩
  · unfold Benchmark.init at h
    split at h
    · simp only [Except.bind_eq_ok_iff, Except.pure_eq_ok_iff] at h
      obtain ⟨files, -, pairs, -, rfl⟩ := h
      exact ⟨_, rfl⟩
    · cases h
  · simp only [Experiment.init, Except.bind_eq_ok_iff, Except.pure_eq_ok_iff] at h
    obtain ⟨timeEnd, -, rfl⟩ := h
    exact ⟨_, rfl⟩
  · cases h

/-- What is read for an object of a document: a dictionary, unless it has a `__type__`. -/
theorem classDecoder_cases {entries : List (Str × Value F)} {v : Value F}
    (h : classDecoder now entries = .ok v) :
    (typeKey ∉ entries.map Prod.fst ∧ v = .dict entries) ∨
      ∃ c attributes, v = .object c attributes := by
  unfold classDecoder at h
  split at h
  · rename_i hnone
    exact .inl ⟨lookup_eq_none_iff.mp hnone, (Except.ok.inj h).symm⟩
  · right
    simp only [Except.bind_eq_ok_iff] at h
    obtain ⟨c, -, arguments, -, hinit⟩ := h
    exact ⟨c, init_object hinit⟩

/-- How an object is written and read, given its type and its public attributes. -/
theorem readAs_object {c : ClassName} {type : Str} {attributes : List (Str × Value F)}
    (v' : Value F) (keys : List Str) (vs : List (Value F)) (htype : c.type = some type)
    (hencode : encodeAttributes attributes = encodeEntries (keys.zip vs))
    (hlength : keys.length = vs.length)
    (hplain : (typeKey :: type :: keys).map Json.joined = typeKey :: type :: keys)
    (hnodup : (typeKey :: keys).Nodup) :
    ReadAs now (.object c attributes) v' ↔ ∃ vs', List.Forall₂ (ReadAs now) vs vs' ∧
      classDecoder now ((typeKey, .str type) :: keys.zip vs') = .ok v' := by
  simp only [List.map_cons, List.cons.injEq] at hplain
  obtain ⟨htypeKey, htypeStr, hplain⟩ := hplain
  have hself : ∀ {vs'}, List.Forall₂ (ReadAs now) vs vs' →
      dictOf ((typeKey, .str type) :: keys.zip vs') = (typeKey, .str type) :: keys.zip vs' := by
    intro vs' hvs'
    refine dictOf_eq_self ?_
    rw [List.map_cons, List.map_fst_zip (by rw [hlength, hvs'.length_eq])]
    exact hnodup
  constructor
  · rintro ⟨document, hwritten, hdecode⟩
    simp only [encode, htype, hencode, Except.bind_eq_ok_iff, Except.pure_eq_ok_iff] at hwritten
    obtain ⟨members, hmembers, rfl⟩ := hwritten
    simp only [Json.readBack, Json.readBackMembers, htypeKey, htypeStr, decode, decodeMembers,
      Except.bind_eq_ok_iff, Except.pure_eq_ok_iff] at hdecode
    obtain ⟨_, ⟨_, hstr, entries', hentries', rfl⟩, hdecoder⟩ := hdecode
    obtain rfl := Except.ok.inj hstr
    obtain ⟨vs', hvs', rfl⟩ := (readEntry_zip hplain hlength).mp
      (readAs_entries.mp ⟨members, hmembers, hentries'⟩)
    rw [hself hvs'] at hdecoder
    exact ⟨vs', hvs', hdecoder⟩
  · rintro ⟨vs', hvs', hdecoder⟩
    obtain ⟨members, hmembers, hentries'⟩ := readAs_entries.mpr
      ((readEntry_zip hplain hlength).mpr ⟨vs', hvs', rfl⟩)
    refine ⟨.obj ((typeKey, .str type) :: members), ?_, ?_⟩
    · simp [encode, htype, hencode, hmembers]
    · simp [Json.readBack, Json.readBackMembers, htypeKey, htypeStr, decode, decodeMembers,
        hentries', hself hvs', hdecoder]

/-! ### The classes -/

section Classes

variable (a b c d e f g h i : Value F)

/-- The attributes of a pair are the parameters of its constructor. -/
theorem classDecoder_inputOutputPair :
    classDecoder now [(typeKey, .str (lit "InputOutputPair")), (lit "input", a),
      (lit "output", b), (lit "timeout", c), (lit "returncode", d), (lit "use_stdout", e),
      (lit "use_stderr", f)] = .ok (InputOutputPair.init a b c d e f) := rfl

/-- A source file has two attributes that are no parameters. -/
theorem classDecoder_sourceFile :
    classDecoder now [(typeKey, .str (lit "SourceFile")), (lit "path", a),
      (lit "options", b), (lit "only_functions", c), (lit "output_file", d),
      (lit "optimistic_choices", e), (lit "current_control_string", f)] = .error .typeError := rfl

/-- An experiment has two attributes that are no parameters. -/
theorem classDecoder_experiment :
    classDecoder now [(typeKey, .str (lit "Experiment")), (lit "benchmark_files", a),
      (lit "max_tries", b), (lit "max_time", c), (lit "time_end", d), (lit "oc_blacklist", e),
      (lit "oc_whitelist", f), (lit "annotation_run", g)] = .error .typeError := rfl

/-- The public attributes of a benchmark are the parameters of its constructor. -/
theorem classDecoder_benchmark :
    classDecoder now [(typeKey, .str (lit "Benchmark")), (lit "name", a),
      (lit "source_files", b), (lit "input_output_pairs", c), (lit "options", d),
      (lit "executable", e), (lit "make_cmd", f), (lit "verify_cmd", g),
      (lit "verify_cmd_timeout", h)] = Benchmark.init a b d e c g h f := rfl

/-- A value is written, and what is read is the same up to private fields. -/
def Returns (now : Clock F) (v : Value F) : Prop :=
  ∃ v', ReadAs now v v' ∧ publicPart v' = publicPart v

/-- The elements of a list come back one by one. -/
theorem exists_forall₂_map_eq {α β γ : Type*} {R : α → β → Prop} {p : β → γ} {q : α → γ}
    (l : List α) : (∃ l', List.Forall₂ R l l' ∧ l'.map p = l.map q) ↔
      ∀ x ∈ l, ∃ y, R x y ∧ p y = q x := by
  induction l with
  | nil => simp
  | cons x l ih =>
      rw [List.forall_mem_cons, ← ih]
      constructor
      · rintro ⟨l', hl', hsame⟩
        obtain ⟨y, t, hy, ht, rfl⟩ := List.forall₂_cons_left_iff.mp hl'
        obtain ⟨hhead, htail⟩ := List.cons.inj hsame
        exact ⟨⟨y, hy, hhead⟩, t, ht, htail⟩
      · rintro ⟨⟨y, hy, hhead⟩, t, ht, htail⟩
        exact ⟨y :: t, .cons hy ht, by rw [List.map_cons, List.map_cons, hhead, htail]⟩

theorem forall_returns_iff {vs : List (Value F)} : (∀ v ∈ vs, Returns now v) ↔
    ∃ vs', List.Forall₂ (ReadAs now) vs vs' ∧ vs'.map publicPart = vs.map publicPart :=
  (exists_forall₂_map_eq vs).symm

theorem returns_list {items : List (Value F)} :
    Returns now (.list items) ↔ ∀ v ∈ items, Returns now v := by
  rw [forall_returns_iff, Returns]
  simp only [readAs_list]
  constructor
  · rintro ⟨_, ⟨items', hitems', rfl⟩, hsame⟩
    rw [publicPart_list, publicPart_list] at hsame
    exact ⟨items', hitems', Value.list.inj hsame⟩
  · rintro ⟨items', hitems', hsame⟩
    refine ⟨.list items', ⟨items', hitems', rfl⟩, ?_⟩
    rw [publicPart_list, publicPart_list, hsame]

theorem not_returns_tuple (items : List (Value F)) : ¬ Returns now (.tuple items) := by
  rintro ⟨v', hread, hsame⟩
  obtain ⟨items', rfl⟩ := readAs_tuple hread
  rw [publicPart, publicPart] at hsame
  cases hsame

theorem returns_entry {e : Str × Value F} :
    (∃ e', ReadEntry now e e' ∧ (e'.1, publicPart e'.2) = (e.1, publicPart e.2)) ↔
      Json.joined e.1 = e.1 ∧ Returns now e.2 := by
  constructor
  · rintro ⟨e', ⟨hkey, hread⟩, hsame⟩
    obtain ⟨hkey', hsame⟩ := Prod.mk.inj hsame
    exact ⟨hkey.symm.trans hkey', e'.2, hread, hsame⟩
  · rintro ⟨hkey, v', hread, hsame⟩
    exact ⟨(e.1, v'), ⟨hkey.symm, hread⟩, by rw [hsame]⟩

theorem returns_dict {entries : List (Str × Value F)} (hnodup : (entries.map Prod.fst).Nodup) :
    Returns now (.dict entries) ↔ typeKey ∉ entries.map Prod.fst ∧
      ∀ e ∈ entries, Json.joined e.1 = e.1 ∧ Returns now e.2 := by
  simp only [← returns_entry]
  rw [← exists_forall₂_map_eq, Returns]
  simp only [readAs_dict]
  have hkeys : ∀ {l l' : List (Str × Value F)}, (l'.map fun e => (e.1, publicPart e.2)) =
      l.map (fun e => (e.1, publicPart e.2)) → l'.map Prod.fst = l.map Prod.fst := by
    intro l l' h
    have := congrArg (List.map Prod.fst) h
    rwa [List.map_map, List.map_map] at this
  constructor
  · rintro ⟨v', ⟨entries', hentries', hdecoder⟩, hsame⟩
    cases classDecoder_cases hdecoder with
    | inl hdict =>
        obtain ⟨htype, rfl⟩ := hdict
        rw [publicPart, publicPart, publicEntries_eq_map, publicEntries_eq_map] at hsame
        have hsame' := Value.dict.inj hsame
        have hself : dictOf entries' = entries' := by
          refine dictOf_eq_self_of_length ?_
          have hlength := congrArg List.length hsame'
          rw [List.length_map, List.length_map, hentries'.length_eq] at hlength
          exact Nat.le_of_eq hlength.symm
        rw [hself] at hsame' htype
        exact ⟨hkeys hsame' ▸ htype, entries', hentries', hsame'⟩
    | inr hobject =>
        obtain ⟨c, attributes, rfl⟩ := hobject
        rw [publicPart, publicPart] at hsame
        cases hsame
  · rintro ⟨htype, entries', hentries', hsame⟩
    have hself : dictOf entries' = entries' := dictOf_eq_self (hkeys hsame ▸ hnodup)
    have hnone : lookup typeKey entries' = none :=
      lookup_eq_none_iff.mpr (hkeys hsame ▸ htype)
    refine ⟨.dict entries', ⟨entries', hentries', by rw [hself, classDecoder, hnone]⟩, ?_⟩
    rw [publicPart, publicPart, publicEntries_eq_map, publicEntries_eq_map, hsame]

/-- The attributes of a pair. -/
def pairKeys : List Str := [lit "input", lit "output", lit "timeout", lit "returncode",
  lit "use_stdout", lit "use_stderr"]

theorem returns_inputOutputPair :
    Returns now (InputOutputPair.init a b c d e f) ↔ ∀ v ∈ [a, b, c, d, e, f], Returns now v := by
  have hread : ∀ v', ReadAs now (InputOutputPair.init a b c d e f) v' ↔ _ := fun v' =>
    readAs_object v' pairKeys [a, b, c, d, e, f] rfl rfl rfl (by decide) (by decide)
  rw [forall_returns_iff, Returns]
  simp only [hread]
  constructor
  · rintro ⟨v', ⟨vs', hvs', hdecoder⟩, hsame⟩
    obtain ⟨a', b', c', d', e', f', rfl⟩ := forall₂_six _ _ _ _ _ _ hvs'
    obtain rfl := Except.ok.inj ((classDecoder_inputOutputPair ..).symm.trans hdecoder)
    refine ⟨_, hvs', ?_⟩
    have hvalues := congrArg (List.map Prod.snd) (Value.object.inj hsame).2
    exact hvalues
  · rintro ⟨vs', hvs', hsame⟩
    obtain ⟨a', b', c', d', e', f', rfl⟩ := forall₂_six _ _ _ _ _ _ hvs'
    refine ⟨_, ⟨_, hvs', classDecoder_inputOutputPair ..⟩, ?_⟩
    have hvalues := congrArg (List.zip pairKeys) hsame
    exact congrArg (Value.object .inputOutputPair) hvalues

/-- A source file is written with attributes that its constructor does not take. -/
theorem not_readAs_sourceFile (v' : Value F) : ¬ ReadAs now (Sourcefile.object a b c d e f) v' := by
  intro hread
  obtain ⟨vs', hvs', hdecoder⟩ := (readAs_object v'
    [lit "path", lit "options", lit "only_functions", lit "output_file", lit "optimistic_choices",
      lit "current_control_string"] [a, b, c, d, e, f] rfl rfl rfl (by decide) (by decide)).mp hread
  obtain ⟨a', b', c', d', e', f', rfl⟩ := forall₂_six _ _ _ _ _ _ hvs'
  have herror := (classDecoder_sourceFile ..).symm.trans hdecoder
  cases herror

/-- So is an experiment. -/
theorem not_readAs_experiment (v' : Value F) :
    ¬ ReadAs now (Experiment.object a b c d e f g) v' := by
  intro hread
  obtain ⟨vs', hvs', hdecoder⟩ := (readAs_object v'
    [lit "benchmark_files", lit "max_tries", lit "max_time", lit "time_end", lit "oc_blacklist",
      lit "oc_whitelist", lit "annotation_run"] [a, b, c, d, e, f, g] rfl rfl rfl
    (by decide) (by decide)).mp hread
  obtain ⟨a', vs', -, hrest, rfl⟩ := List.forall₂_cons_left_iff.mp hvs'
  obtain ⟨b', c', d', e', f', g', rfl⟩ := forall₂_six _ _ _ _ _ _ hrest
  have herror := (classDecoder_experiment ..).symm.trans hdecoder
  cases herror

/-- What the constructor makes of the fields that are read. -/
theorem benchmark_init_eq_ok {pairs : List (Value F)} {v : Value F}
    (h : Benchmark.init a (.list []) d e (.list pairs) g i f = .ok v) :
    v = Benchmark.object a (.list []) (.list pairs) d e f g i (.int 0) := by
  unfold Benchmark.init at h
  split at h
  · simp only [Except.bind_eq_ok_iff, Except.pure_eq_ok_iff] at h
    obtain ⟨files, hfiles, pairs', hpairs, rfl⟩ := h
    obtain ⟨items, hitems, rfl, -⟩ := appendAll_ioPair hpairs
    obtain rfl := Option.some.inj hitems
    obtain rfl := Except.ok.inj hfiles
    rfl
  · cases h

theorem benchmark_init_of_isPair {pairs : List (Value F)} (hpairs : ∀ p ∈ pairs, IsPair p)
    (hoptions : strIterable d = true) :
    Benchmark.init a (.list []) d e (.list pairs) g i f =
      .ok (Benchmark.object a (.list []) (.list pairs) d e f g i (.int 0)) := by
  unfold Benchmark.init
  unfold strIterable at hoptions
  rw [if_pos hoptions, appendAll_of_isPair hpairs]
  rfl

/-- What is read of the fields of a benchmark is again a list of files and one of pairs. -/
theorem readAs_benchmarkFields {files pairs vs' : List (Value F)}
    (h : List.Forall₂ (ReadAs now) [a, .list files, .list pairs, d, e, f, g, h] vs') :
    ∃ a' files' pairs' d' e' f' g' h',
      vs' = [a', .list files', .list pairs', d', e', f', g', h'] ∧
        List.Forall₂ (ReadAs now) files files' := by
  match vs', h with
  | [a', _, _, d', e', f', g', h'], .cons _ (.cons hfiles (.cons hpairs _)) =>
      obtain ⟨files', hfiles', rfl⟩ := readAs_list.mp hfiles
      obtain ⟨pairs', -, rfl⟩ := readAs_list.mp hpairs
      exact ⟨a', files', pairs', d', e', f', g', h', rfl, hfiles'⟩

/-- A benchmark comes back exactly if it has no source files and all its fields come back. -/
theorem returns_benchmark {files pairs : List (Value F)}
    (hfiles : ∀ v ∈ files, ∃ a b c d e f, v = Sourcefile.object a b c d e f)
    (hpairs : ∀ v ∈ pairs, IsPair v) (hoptions : strIterable d = true) :
    Returns now (Benchmark.object a (.list files) (.list pairs) d e f g h i) ↔ files = [] ∧
      ∀ v ∈ [a, .list files, .list pairs, d, e, f, g, h], Returns now v := by
  have hread : ∀ v', ReadAs now (Benchmark.object a (.list files) (.list pairs) d e f g h i) v' ↔
      _ := fun v' => readAs_object v' benchmarkKeys
    [a, .list files, .list pairs, d, e, f, g, h] rfl rfl rfl (by decide) (by decide)
  rw [forall_returns_iff, Returns]
  simp only [hread]
  constructor
  · rintro ⟨v', ⟨vs', hvs', hdecoder⟩, hsame⟩
    obtain ⟨a', files', pairs', d', e', f', g', h', rfl, hfiles'⟩ :=
      readAs_benchmarkFields _ _ _ _ _ _ hvs'
    have hnone : files = [] := by
      cases files with
      | nil => rfl
      | cons v files =>
          obtain ⟨v', _, hv', -, -⟩ := List.forall₂_cons_left_iff.mp hfiles'
          obtain ⟨a, b, c, d, e, f, rfl⟩ := hfiles v List.mem_cons_self
          exact absurd hv' (not_readAs_sourceFile a b c d e f v')
    subst hnone
    obtain rfl := List.forall₂_nil_left_iff.mp hfiles'
    have hinit := (classDecoder_benchmark ..).symm.trans hdecoder
    obtain rfl := benchmark_init_eq_ok _ _ _ _ _ _ hinit
    exact ⟨rfl, _, hvs', map_eq_of_publicPart_benchmark _ _ _ _ _ _ _ _ _ hsame⟩
  · rintro ⟨rfl, vs', hvs', hsame⟩
    obtain ⟨a', files', pairs', d', e', f', g', h', rfl, hfiles'⟩ :=
      readAs_benchmarkFields _ _ _ _ _ _ hvs'
    obtain rfl := List.forall₂_nil_left_iff.mp hfiles'
    have hvalues := hsame
    simp only [List.map_cons, List.cons.injEq, publicPart_list, Value.list.injEq] at hvalues
    obtain ⟨-, -, hpairsSame, hoptionsSame, -⟩ := hvalues
    have hoptions' : strIterable d' = true := by
      rw [← strIterable_publicPart, hoptionsSame, strIterable_publicPart, hoptions]
    have hpairs'' : ∀ p' ∈ pairs', IsPair p' := by
      intro p' hp'
      obtain ⟨p, hp, hsame'⟩ := List.mem_map.mp (hpairsSame ▸ List.mem_map_of_mem hp')
      exact isPair_of_publicPart hsame'.symm (hpairs p hp)
    have hinit := benchmark_init_of_isPair a' d' e' f' g' h' hpairs'' hoptions'
    refine ⟨_, ⟨_, hvs', (classDecoder_benchmark ..).trans hinit⟩, ?_⟩
    rw [publicPart_benchmark, publicPart_benchmark, hsame]

end Classes

end Reading

end Petospa.Serializable
