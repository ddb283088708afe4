import Pearl.Proofs.Json.Scanning
import Pearl.Proofs.Operator.Precision
import Pearl.Ty.Reader

/-! # Types and typings in JSON

What is written can be read back, as far as the text is not nested too deep for a reader and the
numbers are words of 32 bits. What is read from a text, however that is spelled, meets both
conditions: it is nested no deeper than the text that it comes from.
-/

namespace Pearl

open Json

namespace Ty

/-- The arrays and references around the innermost type. -/
def nesting : Ty → Nat
  | .array t | .reference t => t.nesting + 1
  | .fixed _ | .float _ | .bit _ | .char _ | .duration | .clock | .task => 0

/-- The objects inside one another that a type is written with. -/
def objects : Ty → Nat
  | .array t | .reference t => t.objects + 1
  | .fixed _ | .float _ | .bit _ | .char _ => 1
  | .duration | .clock | .task => 0

theorem objects_le (t : Ty) : t.objects ≤ t.nesting + 1 := by
  induction t with
  | array t ih | reference t ih => exact Nat.succ_le_succ ih
  | fixed | float | bit | char => exact Nat.le_refl 1
  | duration | clock | task => exact Nat.zero_le 1

/-- A type that a reader of at most `n` objects inside one another can give. -/
structure Readable (n : Nat) (t : Ty) : Prop where
  objects_le : t.objects ≤ n
  inner_lt : t.inner < precisionLimit

variable {n : Nat} {t : Ty} {key : String} {rest : List Char}

/-! ## Reading what was written -/

theorem readPlain_quote (h : plain.lookup key = some t) :
    readPlain (quote key ++ rest) = some (t, rest) := by
  simp [readPlain, h]

theorem read_quote (h : plain.lookup key = some t) :
    read n (quote key ++ rest) = some (t, rest) := by
  cases n with
  | zero => exact readPlain_quote h
  | succ n =>
    have hmark : mark? '\x7b' (quote key ++ rest) = none := mark?_of_ne rfl (by decide)
    simp [read, hmark, readPlain_quote h]

section Argument

variable {inner : List Char → Option (Ty × List Char)} {cs : List Char}

theorem readArgument_sized {make : Precision → Ty} {g : Precision}
    (hkey : sized.lookup key = some make) (hg : g < precisionLimit) :
    readArgument inner key ((Json.nat g).compact ++ '\x7d' :: rest) =
      some (make g, '\x7d' :: rest) := by
  have hread := readNatBelow_toDigits hg (@stopsNumber_close rest)
  simp [readArgument, hkey, Json.nat, compact, hread]

theorem readArgument_wrapped {make : Ty → Ty} (hsized : sized.lookup key = none)
    (hkey : wrapped.lookup key = some make) (h : inner cs = some (t, rest)) :
    readArgument inner key cs = some (make t, rest) := by
  simp [readArgument, hsized, hkey, h]

end Argument

/-- An object of one field takes one level. -/
theorem read_object {value : Json}
    (h : readArgument (read n) key (value.compact ++ '\x7d' :: rest) = some (t, '\x7d' :: rest)) :
    read (n + 1) ((Json.object [(key, value)]).compact ++ rest) = some (t, rest) := by
  have hcompact : (Json.object [(key, value)]).compact ++ rest =
      '\x7b' :: (quote key ++ ':' :: (value.compact ++ '\x7d' :: rest)) := by
    simp [compact, compactFields]
  simp [hcompact, read, readObject, h]

/-- A type is read back, whatever stands behind it. -/
theorem read_compact (h : t.Readable n) (rest : List Char) :
    read n (t.toJson.compact ++ rest) = some (t, rest) := by
  induction t generalizing n rest with
  | duration | clock | task => exact read_quote rfl
  | fixed g | float g | bit g | char g =>
    obtain ⟨n, rfl⟩ : ∃ m, n = m + 1 := ⟨n - 1, (Nat.sub_add_cancel h.objects_le).symm⟩
    exact read_object (readArgument_sized rfl h.inner_lt)
  | array t ih | reference t ih =>
    obtain ⟨n, rfl⟩ : ∃ m, n = m + 1 :=
      ⟨n - 1, (Nat.sub_add_cancel (Nat.one_le_of_lt h.objects_le)).symm⟩
    have hinner : t.Readable n := ⟨Nat.le_of_succ_le_succ h.objects_le, h.inner_lt⟩
    exact read_object (readArgument_wrapped rfl rfl (ih hinner _))

/-! ## What is read can be read again -/

theorem mem_of_lookup {β : Type} {table : List (String × β)} {b : β}
    (h : table.lookup key = some b) : (key, b) ∈ table := by
  obtain ⟨before, after, rfl, -⟩ := List.lookup_eq_some_iff.mp h
  exact List.mem_append_right before (List.mem_cons_self ..)

theorem readable_of_plain (h : plain.lookup key = some t) : t.Readable n := by
  have hmem := mem_of_lookup h
  simp only [plain, List.mem_cons, Prod.mk.injEq, List.not_mem_nil, or_false] at hmem
  rcases hmem with ⟨-, rfl⟩ | ⟨-, rfl⟩ | ⟨-, rfl⟩ <;> exact ⟨Nat.zero_le n, by decide⟩

theorem readable_of_sized {make : Precision → Ty} {g : Precision} (h : sized.lookup key = some make)
    (hg : g < precisionLimit) : (make g).Readable (n + 1) := by
  have hmem := mem_of_lookup h
  simp only [sized, List.mem_cons, Prod.mk.injEq, List.not_mem_nil, or_false] at hmem
  rcases hmem with ⟨-, rfl⟩ | ⟨-, rfl⟩ | ⟨-, rfl⟩ | ⟨-, rfl⟩ <;>
    exact ⟨Nat.succ_le_succ (Nat.zero_le n), hg⟩

theorem readable_of_wrapped {make : Ty → Ty} (h : wrapped.lookup key = some make)
    (ht : t.Readable n) : (make t).Readable (n + 1) := by
  have hmem := mem_of_lookup h
  simp only [wrapped, List.mem_cons, Prod.mk.injEq, List.not_mem_nil, or_false] at hmem
  rcases hmem with ⟨-, rfl⟩ | ⟨-, rfl⟩ <;> exact ⟨Nat.succ_le_succ ht.objects_le, ht.inner_lt⟩

variable {cs : List Char}

theorem readable_of_readPlain (h : readPlain cs = some (t, rest)) : t.Readable n := by
  simp only [readPlain, Option.bind_eq_bind, Option.bind_eq_some_iff] at h
  obtain ⟨_, -, u, hlookup, h⟩ := h
  cases h
  exact readable_of_plain hlookup

theorem readable_of_readArgument {inner : List Char → Option (Ty × List Char)}
    (hinner : ∀ cs t rest, inner cs = some (t, rest) → t.Readable n)
    (h : readArgument inner key cs = some (t, rest)) : t.Readable (n + 1) := by
  simp only [readArgument, Option.bind_eq_bind] at h
  cases hsized : sized.lookup key with
  | some make =>
    simp only [hsized, Option.bind_eq_some_iff] at h
    obtain ⟨⟨g, _⟩, hread, h⟩ := h
    cases h
    exact readable_of_sized hsized (lt_of_readNatBelow hread)
  | none =>
    cases hwrapped : wrapped.lookup key with
    | some make =>
      simp only [hsized, hwrapped, Option.bind_eq_some_iff] at h
      obtain ⟨⟨u, _⟩, hread, h⟩ := h
      cases h
      exact readable_of_wrapped hwrapped (hinner _ _ _ hread)
    | none =>
      cases hplain : plain.lookup key with
      | some u =>
        simp only [hsized, hwrapped, hplain, Option.bind_eq_some_iff] at h
        obtain ⟨_, -, h⟩ := h
        cases h
        exact readable_of_plain hplain
      | none => simp [hsized, hwrapped, hplain] at h

/-- A type is nested no deeper than the text that it is read from. -/
theorem readable_of_read (h : read n cs = some (t, rest)) : t.Readable n := by
  induction n generalizing cs t rest with
  | zero => exact readable_of_readPlain h
  | succ n ih =>
    unfold read at h
    split at h
    · simp only [readObject, Option.bind_eq_bind, Option.bind_eq_some_iff] at h
      obtain ⟨_, -, _, -, ⟨u, _⟩, hargument, _, -, h⟩ := h
      cases h
      exact readable_of_readArgument (fun _ _ _ hread => ih hread) hargument
    · exact readable_of_readPlain h

end Ty

namespace Typing

/-- A typing that can be given by a reader. -/
structure Readable (r : Typing) : Prop where
  ty : r.ty.Readable (Ty.nestingLimit - 1)
  var : ∀ id ∈ r.var, id.index < precisionLimit

variable {n : Nat} {key : String} {cs rest : List Char} {fields fields' : Fields}

/-! ## Reading what was written -/

theorem readBool_compact (b : Bool) (rest : List Char) :
    readBool ((Json.bool b).compact ++ rest) = some (b, rest) := by
  cases b with
  | true =>
    have hword : word? "true" ("true".toList ++ rest) = some rest := word?_append rfl rfl
    rw [compact, readBool, hword]
  | false =>
    have htrue : word? "true" ("false".toList ++ rest) = none := word?_of_ne rfl rfl (by decide)
    have hword : word? "false" ("false".toList ++ rest) = some rest := word?_append rfl rfl
    rw [compact, readBool, htrue, hword]
    rfl

/-- The variable, or nothing. -/
def varJson : Option SymbolId → Json := .ofOption fun id => .nat id.index

theorem readVar_compact {var : Option SymbolId} (h : ∀ id ∈ var, id.index < precisionLimit)
    (hrest : StopsNumber rest) : readVar ((varJson var).compact ++ rest) = some (var, rest) := by
  cases var with
  | none =>
    have hword : word? "null" ("null".toList ++ rest) = some rest := word?_append rfl rfl
    rw [varJson, Json.ofOption, compact, readVar, hword]
  | some id =>
    have hword : word? "null" (Nat.toDigits 10 id.index ++ rest) = none := word?_toDigits rfl rfl _
    have hread := readNatBelow_toDigits (h id rfl) hrest
    simp [readVar, varJson, Json.ofOption, Json.nat, compact, hword, hread]

theorem readField_ty {t : Ty} (ht : t.Readable (Ty.nestingLimit - 1)) (hnew : fields.ty = none) :
    readField fields "ty" (t.toJson.compact ++ rest) =
      some ({ fields with ty := some t }, rest) := by
  simp [readField, hnew, readTy, Ty.read_compact ht]

theorem readField_constant (b : Bool) (hnew : fields.constant = none) :
    readField fields "constant" ((Json.bool b).compact ++ rest) =
      some ({ fields with constant := some b }, rest) := by
  simp [readField, hnew, readBool_compact]

theorem readField_variable {var : Option SymbolId} (hvar : ∀ id ∈ var, id.index < precisionLimit)
    (hrest : StopsNumber rest) (hnew : fields.var = none) :
    readField fields "variable" ((varJson var).compact ++ rest) =
      some ({ fields with var := some var }, rest) := by
  simp [readField, hnew, readVar_compact hvar hrest]

section Fields

variable {value : List Char}

theorem readFields_more
    (h : readField fields key (value ++ ',' :: cs) = some (fields', ',' :: cs)) :
    readFields (n + 1) fields (quote key ++ ':' :: (value ++ ',' :: cs)) =
      readFields n fields' cs := by
  simp [readFields, h]

theorem readFields_last
    (h : readField fields key (value ++ '\x7d' :: cs) = some (fields', '\x7d' :: cs)) :
    readFields (n + 1) fields (quote key ++ ':' :: (value ++ '\x7d' :: cs)) =
      some (fields', cs) := by
  have hcomma : mark? ',' ('\x7d' :: cs) = none := mark?_of_ne rfl (by decide)
  simp [readFields, h, hcomma]

end Fields

/-- The fields of a typing as they are written, and what stands behind them. -/
def fieldsText (r : Typing) (rest : List Char) : List Char :=
  quote "ty" ++ ':' :: (r.ty.toJson.compact ++ ',' ::
    (quote "constant" ++ ':' :: ((Json.bool r.constant).compact ++ ',' ::
      (quote "variable" ++ ':' :: ((varJson r.var).compact ++ '\x7d' :: rest)))))

variable {r : Typing}

theorem compact_toJson (r : Typing) (rest : List Char) :
    r.toJson.compact ++ rest = '\x7b' :: r.fieldsText rest := by
  simp [toJson, compact, compactFields, fieldsText, varJson]

theorem readFields_fieldsText (h : r.Readable) (rest : List Char) :
    readFields (n + 3) {} (r.fieldsText rest) =
      some (⟨some r.ty, some r.constant, some r.var⟩, rest) := by
  rw [fieldsText, readFields_more (readField_ty h.ty rfl),
    readFields_more (readField_constant r.constant rfl),
    readFields_last (readField_variable h.var stopsNumber_close rfl)]

/-- A typing is read back, whatever stands behind it. -/
theorem read_compact (h : r.Readable) (rest : List Char) :
    read (r.toJson.compact ++ rest) = some (r, rest) := by
  have hlength : 3 ≤ (r.fieldsText rest).length := by
    rw [fieldsText, List.length_append]
    exact Nat.le_add_right_of_le (by decide)
  obtain ⟨n, hn⟩ : ∃ n, (r.fieldsText rest).length = n + 3 := ⟨_, (Nat.sub_add_cancel hlength).symm⟩
  simp [compact_toJson, read, readObject, hn, readFields_fieldsText h, Fields.typing?]

/-! ## What is read can be read again -/

/-- What has been read so far can be read again. -/
structure Fields.Readable (fields : Fields) : Prop where
  ty : ∀ t ∈ fields.ty, t.Readable (Ty.nestingLimit - 1)
  var : ∀ v ∈ fields.var, ∀ id ∈ v, id.index < precisionLimit

theorem lt_of_readVar {var : Option SymbolId} (h : readVar cs = some (var, rest)) :
    ∀ id ∈ var, id.index < precisionLimit := by
  unfold readVar at h
  split at h
  · cases h
    simp
  · obtain ⟨⟨m, _⟩, hread, h⟩ := Option.map_eq_some_iff.mp h
    cases h
    simpa using lt_of_readNatBelow hread

theorem Fields.Readable.readField (h : fields.Readable)
    (hread : readField fields key cs = some (fields', rest)) : fields'.Readable := by
  unfold Typing.readField at hread
  simp only [Option.bind_eq_bind] at hread
  split at hread
  · simp only [Option.bind_eq_some_iff] at hread
    obtain ⟨_, -, ⟨t, _⟩, hty, hread⟩ := hread
    cases hread
    exact ⟨by simpa using Ty.readable_of_read hty, h.var⟩
  · simp only [Option.bind_eq_some_iff] at hread
    obtain ⟨_, -, ⟨b, _⟩, -, hread⟩ := hread
    cases hread
    exact ⟨h.ty, h.var⟩
  · simp only [Option.bind_eq_some_iff] at hread
    obtain ⟨_, -, ⟨v, _⟩, hvar, hread⟩ := hread
    cases hread
    exact ⟨h.ty, by simpa using lt_of_readVar hvar⟩
  · obtain ⟨_, -, hread⟩ := Option.map_eq_some_iff.mp hread
    cases hread
    exact h

/-- What holds of the fields after each one holds at the closing brace. -/
theorem Fields.Readable.readFields (h : fields.Readable)
    (hread : readFields n fields cs = some (fields', rest)) : fields'.Readable := by
  induction n generalizing fields cs with
  | zero => cases hread
  | succ n ih =>
    simp only [Typing.readFields, Option.bind_eq_bind, Option.bind_eq_some_iff] at hread
    obtain ⟨_, -, _, -, ⟨next, after⟩, hfield, hread⟩ := hread
    have hnext := h.readField hfield
    split at hread
    · exact ih hnext hread
    · obtain ⟨_, -, hread⟩ := Option.map_eq_some_iff.mp hread
      cases hread
      exact hnext

theorem readable_of_readObject (h : readObject cs = some (r, rest)) : r.Readable := by
  simp only [readObject, Option.bind_eq_bind, Option.bind_eq_some_iff] at h
  obtain ⟨⟨fields, _⟩, hfields, s, htyping, h⟩ := h
  cases h
  have hread : fields.Readable := Fields.Readable.readFields ⟨by simp, by simp⟩ hfields
  simp only [Fields.typing?, Option.bind_eq_bind, Option.bind_eq_some_iff] at htyping
  obtain ⟨t, hty, b, -, htyping⟩ := htyping
  cases htyping
  refine ⟨hread.ty t hty, ?_⟩
  cases hvar : fields.var with
  | none => simp
  | some v => exact hread.var v hvar

theorem readable_of_readArray (h : readArray cs = some (r, rest)) : r.Readable := by
  simp only [readArray, Option.bind_eq_bind, Option.bind_eq_some_iff] at h
  obtain ⟨⟨t, _⟩, hty, _, -, ⟨b, _⟩, -, _, -, ⟨v, _⟩, hvar, _, -, h⟩ := h
  cases h
  exact ⟨Ty.readable_of_read hty, lt_of_readVar hvar⟩

/-- Both forms of a typing, however they are spelled, give one that can be read again. -/
theorem readable_of_read (h : read cs = some (r, rest)) : r.Readable := by
  unfold read at h
  split at h
  · exact readable_of_readObject h
  · split at h
    · exact readable_of_readArray h
    · cases h

end Typing

/-- JSON text is read as what was written, and what any text is read as is read again from the text
that it is written as. -/
theorem json_round_trip :
    (∀ t : Ty, t.nesting ≤ 120 → t.inner < precisionLimit →
      Ty.ofJsonText? t.toJson.compactText = some t) ∧
      (∀ r : Typing, r.ty.nesting ≤ 120 → r.ty.inner < precisionLimit →
        (∀ id ∈ r.var, id.index < precisionLimit) →
        Typing.ofJsonText? r.toJson.compactText = some r) ∧
      (∀ text t, Ty.ofJsonText? text = some t → Ty.ofJsonText? t.toJson.compactText = some t) ∧
      ∀ text r, Typing.ofJsonText? text = some r →
        Typing.ofJsonText? r.toJson.compactText = some r := by
  have hty {t : Ty} (h : t.Readable Ty.nestingLimit) :
      Ty.ofJsonText? t.toJson.compactText = some t :=
    whole_compactText (Ty.read_compact h [])
  have htyping {r : Typing} (h : r.Readable) : Typing.ofJsonText? r.toJson.compactText = some r :=
    whole_compactText (Typing.read_compact h [])
  have hnested {t : Ty} {n : Nat} (h : t.nesting ≤ 120) (hn : 121 ≤ n) : t.objects ≤ n :=
    (t.objects_le.trans (Nat.succ_le_succ h)).trans hn
  refine ⟨?_, ?_, ?_, ?_⟩
  · intro t hnesting hinner
    exact hty ⟨hnested hnesting (by decide), hinner⟩
  · intro r hnesting hinner hvar
    exact htyping ⟨⟨hnested hnesting (by decide), hinner⟩, hvar⟩
  · intro text t h
    obtain ⟨rest, hread⟩ := exists_of_whole h
    exact hty (Ty.readable_of_read hread)
  · intro text r h
    obtain ⟨rest, hread⟩ := exists_of_whole h
    exact htyping (Typing.readable_of_read hread)

/-- Fields in another order, one that is not known, an object in place of a name, and blanks. -/
def looseText : String :=
  "\x7b\"constant\" :true,\"n\":[1, \"\"],\n\"ty\":\x7b\"Array\":\x7b\"Duration\":null\x7d\x7d\x7d "

theorem json_round_trip_spellings :
    Typing.ofJsonText? looseText = some ⟨.array .duration, true, none⟩ ∧
      Typing.ofJsonText? "[\x7b\"Fixed\":31\x7d, false ,7]" = some ⟨.fixed 31, false, some ⟨7⟩⟩ ∧
      ∀ r ∈ [Typing.mk (.array .duration) true none, ⟨.fixed 31, false, some ⟨7⟩⟩],
        Typing.ofJsonText? r.toJson.compactText = some r := by
  have hobject : Typing.ofJsonText? looseText = some ⟨.array .duration, true, none⟩ := by
    decide +kernel
  have harray : Typing.ofJsonText? "[\x7b\"Fixed\":31\x7d, false ,7]" =
    some ⟨.fixed 31, false, some ⟨7⟩⟩ := rfl
  obtain ⟨-, -, -, hagain⟩ := json_round_trip
  exact ⟨hobject, harray, by simp [hagain _ _ hobject, hagain _ _ harray]⟩

end Pearl
