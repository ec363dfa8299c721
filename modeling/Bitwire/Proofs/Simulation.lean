import Bitwire.Codec.EnumCheck
import Bitwire.Proofs.FormatPlaces

/-!
# Accessors that do the same

The codec asks an accessor only for values that the format of the message has, and for bits that
these values have.  If one accessor does there what another does, up to an abstraction of the
messages and to bits past the widths of the values, then all that the codec does with the one is
what it does with the other.
-/

namespace Bitwire

/-! ## 1. Whole patterns -/

-- A byte that was taken out of a pattern, moved back to where it was.
theorem Pattern.testBit_byteAt_sub (p : UInt64) (shift j : Nat) :
    (decide (j < 64 ∧ shift ≤ j) && (byteAt p shift).toNat.testBit (j - shift)) =
      (decide (shift ≤ j ∧ j < shift + 8) && p.toNat.testBit j) := by
  by_cases hin : shift ≤ j ∧ j < shift + 8
  · have hpos : (0 : Int) ≤ (j - shift : Nat) + shift := by omega
    have hsum : ((j - shift : Nat) + shift : Int).toNat = j := by omega
    rw [testBit_byteAt p shift (show j - shift < 8 by omega), decide_eq_true hpos, hsum,
      decide_eq_true hin, Bool.true_and]
    by_cases hj : j < 64
    · rw [decide_eq_true ⟨hj, hin.1⟩, Bool.true_and]
    · rw [testBit_uint64_of_le p (by omega), Bool.and_false]
  · rw [decide_eq_false hin, Bool.false_and]
    by_cases hle : shift ≤ j
    · rw [testBit_uint8_of_le _ (by omega), Bool.and_false]
    · rw [decide_eq_false fun h => hle h.2, Bool.false_and]

-- The bytes of a pattern are added where they were: behind the top of the word there are none.
theorem Pattern.or_byteAt (pattern p : UInt64) (shift : Nat) :
    pattern ||| (byteAt p shift).toUInt64 <<< UInt64.ofNat shift =
      orByte pattern shift (byteAt p shift) := by
  by_cases hout : 64 ≤ shift
  · have hnone : byteAt p shift = 0 := if_pos (.inl (by omega))
    have hzero : (0 : UInt8).toUInt64 <<< UInt64.ofNat shift = 0 := UInt64.zero_shiftLeft
    rw [orByte, if_pos hout, hnone, hzero, UInt64.or_zero]
  · rw [orByte, if_neg hout]

namespace Accessor

variable {m : Type → Type} [Monad m] [LawfulMonad m] {α : Type} {A : Accessor m α} {s : α}
  {place : Place} {p : UInt64}

-- Reading byte by byte collects the bits of the bytes that are read.
theorem readBytes_eq (h : ∀ shift, A.getByte s place shift = pure (Pattern.byteAt p shift))
    (count k : Nat) (pattern : UInt64) : ∃ q, A.readBytes s place count k pattern = pure q ∧
      ∀ j, q.toNat.testBit j = (pattern.toNat.testBit j ||
        (decide (8 * k ≤ j ∧ j < 8 * (k + count)) && p.toNat.testBit j)) := by
  induction count generalizing k pattern with
  | zero =>
    refine ⟨pattern, rfl, fun j => ?_⟩
    have hempty : ¬ (8 * k ≤ j ∧ j < 8 * (k + 0)) := by omega
    rw [decide_eq_false hempty, Bool.false_and, Bool.or_false]
  | succ count ih =>
    obtain ⟨q, hq, hbits⟩ :=
      ih (k + 1) (Pattern.orByte pattern (8 * k) (Pattern.byteAt p (8 * k : Nat)))
    refine ⟨q, ?_, fun j => ?_⟩
    · rw [readBytes, h, pure_bind, Pattern.or_byteAt]
      exact hq
    · rw [hbits, Pattern.testBit_orByte]
      have hstep : (decide (8 * k ≤ j ∧ j < 8 * k + 8) ||
          decide (8 * (k + 1) ≤ j ∧ j < 8 * (k + 1 + count))) =
          decide (8 * k ≤ j ∧ j < 8 * (k + (count + 1))) := by
        rw [← Bool.decide_or]
        exact decide_eq_decide.mpr (by omega)
      rw [Pattern.testBit_byteAt_sub, Bool.or_assoc, ← Bool.and_or_distrib_right, hstep]

/-- A value is read as its pattern, cut to its width. -/
theorem readPattern_eq (h : ∀ shift, A.getByte s place shift = pure (Pattern.byteAt p shift))
    (bits : Nat) : A.readPattern s place bits = pure (Pattern.truncate p bits) := by
  obtain ⟨q, hq, hbits⟩ := readBytes_eq h (Pattern.byteCount bits) 0 0
  rw [readPattern, hq, pure_bind]
  refine congrArg pure (uint64_ext fun k => ?_)
  rw [Pattern.testBit_truncate, Pattern.testBit_truncate, hbits]
  by_cases hk : k < bits
  · have hread : 8 * 0 ≤ k ∧ k < 8 * (0 + Pattern.byteCount bits) := by
      unfold Pattern.byteCount
      omega
    rw [decide_eq_true hread, Bool.true_and]
    show (_ && (Nat.testBit 0 k || _)) = _
    rw [Nat.zero_testBit, Bool.false_or]
  · rw [decide_eq_false hk, Bool.false_and, Bool.false_and]

end Accessor

/-! ## 2. Places that visits address -/

theorem Format.at?_append (f : Format) (front back : List Nat) :
    f.at? (front ++ back) = (f.at? front).bind (·.at? back) := by
  induction front generalizing f with
  | nil => rw [List.nil_append, at?, Option.bind_some]
  | cons i rest ih =>
    cases f with
    | array element capacity =>
      rw [List.cons_append, at?, at?]
      split
      next => exact ih element
      next => rfl
    | bool | int | uint | enum | message => rfl

namespace MessageFormat

variable {m : MessageFormat} {place : Place}

theorem formatAt?_element {element : Format} {capacity i : Nat}
    (h : m.formatAt? place = some (.array element capacity)) (hi : i < capacity) :
    m.formatAt? (place.element i) = some element := by
  obtain ⟨f, hf, hat⟩ := Option.bind_eq_some_iff.mp h
  unfold formatAt? Place.element
  rw [hf, Option.bind_some, Format.at?_append, hat, Option.bind_some, Format.at?, if_pos hi,
    Format.at?]

theorem Sound.formatAt?_field (h : m.Sound) {f : FieldFormat} (hf : f ∈ m.fields.toList) :
    m.formatAt? ⟨f.number, []⟩ = some f.format := by
  obtain ⟨front, back, hsplit⟩ := List.append_of_mem hf
  show (m.fields.toList.find? (·.number == f.number)).bind (·.format.at? []) = _
  rw [h.find?_eq, h.fieldIndex? hsplit, Option.bind_some, hsplit, List.getElem?_append_right le_rfl,
    Nat.sub_self, List.getElem?_cons_zero, Option.bind_some, Format.at?]

end MessageFormat

/-- Visits of values that a format has, in bits that they have. -/
inductive Visit.Addresses : MessageFormat → Visit → Prop
  | value {m : MessageFormat} {place : Place} {f : Format} {offset byte : Nat} {span : ByteSpan} :
    m.formatAt? place = some f → f.isScalar = true → ByteSpan.of? offset f.width byte = some span →
      Addresses m (.value place span)
  | message {m inner : MessageFormat} {place : Place} {visits : List Visit} :
    m.formatAt? place = some (.message inner) → (∀ visit ∈ visits, Addresses inner visit) →
      Addresses m (.message place visits)

namespace Format

-- The visits of fields are those of one of them.
theorem mem_fieldVisits {fields : List FieldFormat} {skip base byte : Nat} {visit : Visit}
    (h : visit ∈ fieldVisits fields skip base byte) :
    ∃ f ∈ fields, visit ∈ f.format.visits ⟨f.number, []⟩ (base + f.offset) byte := by
  induction fields generalizing skip with
  | nil => exact absurd h (by rw [fieldVisits]; exact List.not_mem_nil)
  | cons f rest ih =>
    cases skip with
    | succ skip =>
      rw [fieldVisits] at h
      obtain ⟨g, hg, hvisit⟩ := ih h
      exact ⟨g, List.mem_cons_of_mem _ hg, hvisit⟩
    | zero =>
      rw [fieldVisits] at h
      split at h
      next => exact absurd h List.not_mem_nil
      next =>
        obtain hvisit | hvisit := List.mem_append.mp h
        · exact ⟨f, List.mem_cons_self, hvisit⟩
        · obtain ⟨g, hg, hvisit⟩ := ih hvisit
          exact ⟨g, List.mem_cons_of_mem _ hg, hvisit⟩

-- The visits of a value address the value or what is in it.
theorem Sound.addresses_visits {f : Format} (h : f.Sound) {m : MessageFormat} {place : Place}
    (hat : m.formatAt? place = some f) (offset byte : Nat) :
    ∀ visit ∈ f.visits place offset byte, visit.Addresses m := by
  induction f using Format.induct generalizing m place offset with
  | scalar f hs =>
    rw [visits_scalar hs]
    unfold Visit.ofLeaf
    intro visit hvisit
    cases hspan : ByteSpan.of? offset f.width byte with
    | none =>
      rw [hspan] at hvisit
      exact absurd hvisit List.not_mem_nil
    | some span =>
      rw [hspan] at hvisit
      rw [List.mem_singleton.mp hvisit]
      exact .value hat hs hspan
  | array element capacity ih =>
    intro visit hvisit
    rw [visits] at hvisit
    obtain ⟨i, hi, hvisit⟩ := List.mem_flatMap.mp hvisit
    have hat' := MessageFormat.formatAt?_element hat (lt_of_mem_overlappingElements hi)
    exact ih h.1 hat' _ visit hvisit
  | message inner ih =>
    intro visit hvisit
    have hsound : inner.Sound := h
    rw [visits] at hvisit
    rw [List.mem_singleton.mp hvisit]
    refine .message hat fun visit hvisit => ?_
    obtain ⟨f, hf, hvisit⟩ := mem_fieldVisits hvisit
    exact ih f hf (hsound.field hf) (hsound.formatAt?_field hf) _ visit hvisit

end Format

theorem MessageFormat.Sound.addresses_visits {m : MessageFormat} (h : m.Sound) (byte : Nat) :
    ∀ visit ∈ m.visits byte, visit.Addresses m := by
  intro visit hvisit
  obtain ⟨f, hf, hvisit⟩ := Format.mem_fieldVisits hvisit
  exact (h.field hf).addresses_visits (h.formatAt?_field hf) _ byte visit hvisit

/-! ## 3. Simulation -/

section

variable {ε α β : Type}

/-- The byte `b`, moved up by `shift`, has no bit past the first `width`. -/
def ByteWithin (width shift : Nat) (b : UInt8) : Prop :=
  ∀ k, width ≤ k → shift ≤ k → b.toNat.testBit (k - shift) = false

/-- An accessor, which may refuse places, does at the places of values what another does, up to an
abstraction of its messages.  Of the values it may keep more bits than the other; clean messages are
those that have none, and they stay clean as long as none is added. -/
structure Accessor.Simulates (A : Accessor (Except ε) α) (B : Accessor Id β)
    (format : α → MessageFormat) (abs : α → β) (Clean : α → Prop) : Prop where
  sound : ∀ s, (format s).Sound
  getByte : ∀ {s place f}, (format s).formatAt? place = some f → f.isScalar = true →
    ∃ p, (∀ shift, A.getByte s place shift = .ok (Pattern.byteAt p shift)) ∧
      ∀ shift, B.getByte (abs s) place shift = Pattern.byteAt (Pattern.truncate p f.width) shift
  setByte : ∀ {s place f} (shift b), (format s).formatAt? place = some f → f.isScalar = true →
    ∃ s', A.setByte s place shift b = .ok s' ∧ B.setByte (abs s) place shift b = abs s' ∧
      format s' = format s ∧ (Clean s → ByteWithin f.width shift b → Clean s')
  nested : ∀ {s place f}, (format s).formatAt? place = some (.message f) →
    ∃ child put put', A.message? s place = .ok (some child) ∧
      A.messageMut? s place = .ok (some (child, put)) ∧
      B.message? (abs s) place = some (abs child) ∧
      B.messageMut? (abs s) place = some (abs child, put') ∧
      format child = f ∧ (Clean s → Clean child) ∧
      ∀ c, format c = f → put' (abs c) = abs (put c) ∧ format (put c) = format s ∧
        (Clean s → Clean c → Clean (put c))

namespace Accessor.Simulates

variable {A : Accessor (Except ε) α} {B : Accessor Id β} {format : α → MessageFormat} {abs : α → β}
  {Clean : α → Prop}

/-- What a message has become, and what its abstraction has become. -/
def Follows (format : α → MessageFormat) (abs : α → β) (Clean : α → Prop) (s : α)
    (after : Except ε α) (after' : Id β) : Prop :=
  ∃ s', after = .ok s' ∧ after'.run = abs s' ∧ format s' = format s ∧ (Clean s → Clean s')

theorem Follows.refl (s : α) : Follows format abs Clean s (pure s : Except ε α) (pure (abs s)) :=
  ⟨s, rfl, rfl, rfl, id⟩

theorem Follows.bind {s : α} {x : Except ε α} {y : Id β} {next : α → Except ε α} {next' : β → Id β}
    (h : Follows format abs Clean s x y)
    (hnext : ∀ s', format s' = format s → Follows format abs Clean s' (next s') (next' (abs s'))) :
    Follows format abs Clean s (x >>= next) (y >>= next') := by
  obtain ⟨s', hx, hy, hformat, hclean⟩ := h
  obtain ⟨s'', hnx, hny, hformat', hclean'⟩ := hnext s' hformat
  refine ⟨s'', ?_, ?_, hformat'.trans hformat, hclean' ∘ hclean⟩
  · rw [hx]
    exact hnx
  · rw [Id.run_bind, hy]
    exact hny

/-! ## 4. Parts of bytes -/

-- A part of a byte holds none of the bits that are cut off.
theorem masked_byteAt {offset width byte : Nat} {span : ByteSpan}
    (hspan : ByteSpan.of? offset width byte = some span) (p : UInt64) :
    Pattern.byteAt (Pattern.truncate p width) span.shift &&& span.mask =
      Pattern.byteAt p span.shift &&& span.mask := by
  obtain ⟨-, -, rfl⟩ := ByteSpan.of?_bounds hspan
  refine uint8_ext fun i hi => ?_
  rw [testBit_byteAt_ownBits _ _ _ _ hi, testBit_byteAt_ownBits _ _ _ _ hi, Pattern.testBit_truncate]
  by_cases hown : offset ≤ 8 * byte + i ∧ 8 * byte + i < offset + width
  · rw [decide_eq_true (show 8 * byte + i - offset < width by omega), Bool.true_and]
  · rw [decide_eq_false hown, Bool.false_and, Bool.false_and]

-- What a part adds to a value lies within the width of the value.
theorem contribution_within {offset width byte : Nat} {span : ByteSpan}
    (hspan : ByteSpan.of? offset width byte = some span) (input : UInt8) :
    ByteWithin width (span.contribution input).1 (span.contribution input).2 := by
  intro k hk hshift
  have hbit := ByteSpan.testBit_contribution hspan input k
  have hout : ¬ (k < width ∧ 8 * byte ≤ offset + k ∧ offset + k < 8 * byte + 8) := by omega
  rwa [decide_eq_true hshift, decide_eq_false hout, Bool.true_and, Bool.false_and] at hbit

/-! ## 5. One after the other -/

theorem readAll_congr {s : α} {visits : List Visit}
    (hvisits : ∀ visit ∈ visits, visit.read A s = .ok (visit.read B (abs s)).run) :
    Visit.readAll A visits s = .ok (Visit.readAll B visits (abs s)).run := by
  induction visits with
  | nil => rfl
  | cons visit rest ih =>
    obtain ⟨hvisit, hrest⟩ := List.forall_mem_cons.mp hvisits
    rw [Visit.readAll, Visit.readAll, hvisit, ih hrest]
    rfl

theorem writeAll_follows {input : UInt8} {visits : List Visit}
    (hvisits : ∀ visit ∈ visits, ∀ s' : α, format s' = f →
      Follows format abs Clean s' (visit.write A input s') (visit.write B input (abs s')))
    {s : α} (hs : format s = f) :
    Follows format abs Clean s (Visit.writeAll A input visits s)
      (Visit.writeAll B input visits (abs s)) := by
  induction visits generalizing s with
  | nil =>
    rw [Visit.writeAll, Visit.writeAll]
    exact .refl s
  | cons visit rest ih =>
    obtain ⟨hvisit, hrest⟩ := List.forall_mem_cons.mp hvisits
    rw [Visit.writeAll, Visit.writeAll]
    exact (hvisit s hs).bind fun s' hs' => ih hrest (hs'.trans hs)

theorem stepThrough_congr {γ δ : Type} {step : Nat → δ → Except ε (Except γ δ)}
    {step' : Nat → δ → Id (Except γ δ)} {count i : Nat} {d : δ}
    (hstep : ∀ k, i ≤ k → k < i + count → ∀ d, step k d = .ok (step' k d).run) :
    stepThrough step count i d = .ok (stepThrough step' count i d).run := by
  induction count generalizing i d with
  | zero => rfl
  | succ count ih =>
    rw [stepThrough, stepThrough, hstep i le_rfl (by omega), Id.run_bind]
    cases (step' i d).run with
    | ok d => exact ih fun k hk hk' => hstep k (by omega) (by omega)
    | error e => rfl

theorem checkFieldEnums_congr {policy : EnumPolicy} {fields : List FieldFormat} {s : α}
    (hfields : ∀ f ∈ fields, ∀ path met, f.format.checkEnums A policy s ⟨f.number, []⟩ path met =
      .ok (f.format.checkEnums B policy (abs s) ⟨f.number, []⟩ path met).run)
    (path : FieldPath) (met : Array UnknownEnum) :
    Format.checkFieldEnums A policy fields s path met =
      .ok (Format.checkFieldEnums B policy fields (abs s) path met).run := by
  induction fields generalizing met with
  | nil => rfl
  | cons f rest ih =>
    obtain ⟨hf, hrest⟩ := List.forall_mem_cons.mp hfields
    rw [Format.checkFieldEnums, Format.checkFieldEnums]
    split
    next =>
      rw [hf, Id.run_bind]
      cases (f.format.checkEnums B policy (abs s) ⟨f.number, []⟩ (path.field f.name) met).run with
      | ok met => exact ih hrest met
      | error fault => rfl
    next => exact ih hrest met

/-! ## 6. Encoding and decoding -/

variable (h : A.Simulates B format abs Clean)

include h

theorem read_visit {f : MessageFormat} {visit : Visit} (hv : visit.Addresses f) {s : α}
    (hs : format s = f) : visit.read A s = .ok (visit.read B (abs s)).run := by
  induction hv generalizing s with
  | value hat hscalar hspan =>
    obtain ⟨p, hA, hB⟩ := h.getByte (hs ▸ hat) hscalar
    rw [Visit.read, Visit.read, hA, hB]
    exact congrArg Except.ok (masked_byteAt hspan p).symm
  | message hat hinner ih =>
    obtain ⟨child, -, -, hA, -, hB, -, hchild, -, -⟩ := h.nested (hs ▸ hat)
    rw [Visit.read, Visit.read, hA, hB]
    exact readAll_congr fun visit hvisit => ih visit hvisit hchild

theorem encodeByte_eq (s : α) (byte : Nat) :
    (format s).encodeByte A s byte = .ok ((format s).encodeByte B (abs s) byte).run :=
  readAll_congr fun visit hvisit => h.read_visit ((h.sound s).addresses_visits byte visit hvisit) rfl

theorem encodeFrom_eq (s : α) (count byte : Nat) (out : Array UInt8) :
    (format s).encodeFrom A s count byte out =
      .ok ((format s).encodeFrom B (abs s) count byte out).run := by
  induction count generalizing byte out with
  | zero => rfl
  | succ count ih =>
    rw [MessageFormat.encodeFrom, MessageFormat.encodeFrom, h.encodeByte_eq]
    exact ih (byte + 1) _

/-- Messages that simulate each other are encoded the same. -/
theorem encode_eq (s : α) :
    (format s).encode A s = .ok ((format s).encode B (abs s)).run := by
  unfold MessageFormat.encode MessageFormat.encodeBytes
  rw [h.encodeFrom_eq]
  rfl

theorem write_visit {f : MessageFormat} {visit : Visit} (hv : visit.Addresses f) (input : UInt8)
    {s : α} (hs : format s = f) :
    Follows format abs Clean s (visit.write A input s) (visit.write B input (abs s)) := by
  induction hv generalizing s with
  | value hat hscalar hspan =>
    obtain ⟨s', hA, hB, hformat, hclean⟩ := h.setByte _ _ (hs ▸ hat) hscalar
    rw [Visit.write, Visit.write]
    exact ⟨s', hA, hB, hformat, fun hc => hclean hc (contribution_within hspan input)⟩
  | message hat hinner ih =>
    obtain ⟨child, put, put', -, hA, -, hB, hchild, hclean, hput⟩ := h.nested (hs ▸ hat)
    obtain ⟨c, hcA, hcB, hcformat, hcclean⟩ :=
      writeAll_follows (fun visit hvisit s' hs' => ih visit hvisit hs') hchild
    obtain ⟨habs, hformat, hcleanput⟩ := hput c (hcformat.trans hchild)
    rw [Visit.write, Visit.write, hA, hB]
    refine ⟨put c, ?_, ?_, hformat, fun hc => hcleanput hc (hcclean (hclean hc))⟩
    · show (Visit.writeAll A input _ child >>= fun c => pure (put c)) = _
      rw [hcA]
      rfl
    · show put' (Visit.writeAll B input _ (abs child)).run = _
      rw [hcB, habs]

theorem decodeFrom_follows {f : MessageFormat} (data : List UInt8) (byte : Nat) {s : α}
    (hs : format s = f) :
    Follows format abs Clean s (f.decodeFrom A data byte s) (f.decodeFrom B data byte (abs s)) := by
  induction data generalizing byte s with
  | nil => exact .refl s
  | cons input rest ih =>
    rw [MessageFormat.decodeFrom, MessageFormat.decodeFrom]
    refine Follows.bind (writeAll_follows (fun visit hvisit s' hs' => ?_) hs)
      fun s' hs' => ih (byte + 1) (hs'.trans hs)
    exact h.write_visit ((hs ▸ h.sound s).addresses_visits byte visit hvisit) input hs'

/-- Bytes are decoded into messages that simulate each other with the same outcome, and the messages
that they become simulate each other. -/
theorem decodeInto_eq (s : α) (data : List UInt8) :
    ∃ logged, (format s).decodeInto A s data = .ok logged ∧
      ((format s).decodeInto B (abs s) data).run = logged.map (Except.map abs) ∧
      ∀ s', logged.value = .ok s' → format s' = format s ∧ (Clean s → Clean s') := by
  unfold MessageFormat.decodeInto
  split
  next => exact ⟨_, rfl, rfl, fun s' hs' => nomatch hs'⟩
  next =>
    obtain ⟨s', hA, hB, hformat, hclean⟩ :=
      h.decodeFrom_follows (data.take (format s).byteCount) 0 (Eq.refl (format s))
    rw [hA]
    refine ⟨_, rfl, ?_, fun s'' hs'' => ?_⟩
    · rw [Id.run_bind, hB]
      rfl
    · obtain rfl := Except.ok.inj hs''
      exact ⟨hformat, hclean⟩

/-! ## 7. Checking enums -/

theorem readPattern_eq {s : α} {place : Place} {f : Format}
    (hat : (format s).formatAt? place = some f) (hs : f.isScalar = true) :
    A.readPattern s place f.width = .ok (B.readPattern (abs s) place f.width).run := by
  obtain ⟨p, hA, hB⟩ := h.getByte hat hs
  have htwice : Pattern.truncate (Pattern.truncate p f.width) f.width =
      Pattern.truncate p f.width := by
    refine uint64_ext fun k => ?_
    rw [Pattern.testBit_truncate, Pattern.testBit_truncate, ← Bool.and_assoc, Bool.and_self]
  rw [Accessor.readPattern_eq hA, Accessor.readPattern_eq hB, htwice]
  rfl

theorem checkEnums_value_eq {policy : EnumPolicy} {f : Format} {s : α} {place : Place}
    (hat : (format s).formatAt? place = some f) (path : FieldPath) (met : Array UnknownEnum) :
    f.checkEnums A policy s place path met =
      .ok (f.checkEnums B policy (abs s) place path met).run := by
  induction f using Format.induct generalizing s place path met with
  | scalar f hs =>
    cases f with
    | enum e =>
      rw [Format.checkEnums, Format.checkEnums]
      split
      next => rfl
      next =>
        have hpattern : A.readPattern s place e.bits = .ok (B.readPattern (abs s) place e.bits).run :=
          h.readPattern_eq hat hs
        rw [hpattern, Id.run_bind]
        show (if e.contains _ = true then _ else _ : Except ε _) = _
        split
        next => rfl
        next => rfl
    | bool | int | uint => rfl
    | array | message => exact absurd hs Bool.false_ne_true
  | array element capacity ih =>
    rw [Format.checkEnums, Format.checkEnums]
    exact stepThrough_congr fun i _ hi met =>
      ih (MessageFormat.formatAt?_element hat (by omega)) (path.index i) met
  | message m ih =>
    obtain ⟨child, -, -, hA, -, hB, -, hchild, -, -⟩ := h.nested hat
    have hsound : m.Sound := hchild ▸ h.sound child
    rw [Format.checkEnums, Format.checkEnums, hA, hB]
    refine checkFieldEnums_congr (fun f hf path met => ?_) path met
    exact ih f hf (hchild ▸ hsound.formatAt?_field hf) path met

/-- Messages that simulate each other are checked with the same outcome. -/
theorem checkEnums_eq (s : α) (policy : EnumPolicy) :
    (format s).checkEnums A s policy = .ok ((format s).checkEnums B (abs s) policy).run := by
  unfold MessageFormat.checkEnums
  rw [checkFieldEnums_congr fun f hf path met =>
    h.checkEnums_value_eq ((h.sound s).formatAt?_field hf) path met]
  rw [Id.run_bind]
  cases (Format.checkFieldEnums B policy (format s).fields.toList (abs s) .root #[]).run <;> rfl

/-! ## 8. Adding a byte -/

/-- A byte is added to a value, in a message or in one nested in it, by both alike. -/
theorem enterMut_setByte {s : α} {trail : List Place} {place : Place} {inner : MessageFormat}
    {f : Format} (hinner : (format s).enter? trail = some inner)
    (hat : inner.formatAt? place = some f) (hs : f.isScalar = true) (shift : Nat) (b : UInt8) :
    ∃ s', A.enterMut (fun c => do return (← A.setByte c place shift b, ())) trail s =
        .ok (some (s', ())) ∧
      (B.enterMut (fun c => do return (← B.setByte c place shift b, ())) trail (abs s)).run =
        some (abs s', ()) ∧ format s' = format s := by
  induction trail generalizing s with
  | nil =>
    obtain rfl := Option.some.inj hinner
    obtain ⟨s', hA, hB, hformat, -⟩ := h.setByte shift b hat hs
    refine ⟨s', ?_, ?_, hformat⟩
    · rw [Accessor.enterMut, hA]
      rfl
    · rw [Accessor.enterMut, hB]
      rfl
  | cons first rest ih =>
    rw [MessageFormat.enter?] at hinner
    split at hinner
    next m hm =>
      obtain ⟨child, put, put', -, hA, -, hB, hchild, -, hput⟩ := h.nested hm
      obtain ⟨c, hcA, hcB, hc⟩ := ih (hchild ▸ hinner)
      obtain ⟨habs, hformat, -⟩ := hput c (hc.trans hchild)
      refine ⟨put c, ?_, ?_, hformat⟩
      · rw [Accessor.enterMut, hA]
        show (A.enterMut _ rest child >>= _) = _
        rw [hcA]
        rfl
      · rw [Accessor.enterMut, Id.run_bind, hB, ← habs]
        show (B.enterMut _ rest (abs child) >>= _).run = _
        rw [Id.run_bind, hcB]
        rfl
    next => exact nomatch hinner

end Accessor.Simulates

end

end Bitwire
