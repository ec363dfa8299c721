import Bitwire.Proofs.ReachableMessages

/-!
# Decoding onto what a message holds

A message that is decoded into need not be zero.  Whatever fitting patterns it holds, the stream
is added to the integers and the enums and replaces the booleans, and nothing else of the stream
plays a part: neither padding nor bytes behind the message.  Decoding is therefore idempotent, and
the order of two streams matters to booleans only.
-/

namespace Bitwire

-- The bytes that a decoder takes have all bits that are read.
theorem streamBit_take {bytes : List UInt8} {count i : Nat} (h : i < 8 * count) :
    streamBit (bytes.take count) i = streamBit bytes i := by
  have hlt : i / 8 < count := by omega
  rw [streamBit, streamBit, List.getD_eq_getElem?_getD, List.getD_eq_getElem?_getD,
    List.getElem?_take_of_lt hlt]

theorem streamBits_lt (bytes : List UInt8) (offset width : Nat) :
    (streamBits bytes offset width).toNat < 2 ^ width := by
  rw [streamBits, UInt64.toNat_ofNat']
  exact (Nat.mod_le _ _).trans_lt (Nat.ofBits_lt_two_pow _)

namespace DynamicMessage

/-! ## 1. One leaf -/

theorem deposit_lt {f : Format} (data : List UInt8) (offset : Nat) {p : UInt64}
    (hp : p.toNat < 2 ^ f.width) : (deposit data f offset p).toNat < 2 ^ f.width := by
  by_cases hf : f = .bool
  · rw [hf]
    exact streamBits_lt data offset 1
  · rw [deposit_of_ne hf, UInt64.toNat_or]
    exact Nat.or_lt_two_pow hp (streamBits_lt data offset f.width)

-- A leaf is changed by the bits that it occupies, and by no others.
theorem deposit_congr {f : Format} {data data' : List UInt8} {offset : Nat}
    (h : ∀ k < f.width, streamBit data (offset + k) = streamBit data' (offset + k)) (p : UInt64) :
    deposit data f offset p = deposit data' f offset p := by
  have hbits := streamBits_congr h
  by_cases hf : f = .bool
  · subst hf
    exact hbits
  · rw [deposit_of_ne hf, deposit_of_ne hf, hbits]

-- The second time there is nothing new.
theorem deposit_deposit (data : List UInt8) (f : Format) (offset : Nat) (p : UInt64) :
    deposit data f offset (deposit data f offset p) = deposit data f offset p := by
  by_cases hf : f = .bool
  · rw [hf, deposit, deposit]
  · rw [deposit_of_ne hf, deposit_of_ne hf, UInt64.or_assoc, UInt64.or_self]

-- What two streams add to an integer or an enum is added in any order.
theorem deposit_comm {f : Format} (hf : f ≠ .bool) (data data' : List UInt8) (offset : Nat)
    (p : UInt64) : deposit data f offset (deposit data' f offset p) =
      deposit data' f offset (deposit data f offset p) := by
  rw [deposit_of_ne hf, deposit_of_ne hf, deposit_of_ne hf, deposit_of_ne hf, UInt64.or_assoc,
    UInt64.or_assoc, UInt64.or_comm (streamBits data' offset f.width)]

/-! ## 2. Whole messages -/

theorem Fits.mapLeaves_deposit {msg : DynamicMessage} (hfit : msg.Fits) (data : List UInt8) :
    (msg.mapLeaves (deposit data)).Fits :=
  hfit.mapLeaves fun _ offset _ _ hp => deposit_lt data offset hp

theorem Fits.mapLeaves_deposit_self {msg : DynamicMessage} (hfit : msg.Fits) (data : List UInt8) :
    (msg.mapLeaves (deposit data)).mapLeaves (deposit data) = msg.mapLeaves (deposit data) := by
  rw [hfit.mapLeaves_mapLeaves]
  exact hfit.mapLeaves_congr fun l _ => deposit_deposit data l.format l.offset l.pattern

section

variable {f : MessageFormat} (h : f.Sound) {msg : DynamicMessage} (hformat : msg.format = f)
  (hfit : msg.Fits)

include h hformat hfit

/-- A stream that is long enough is deposited, leaf by leaf, in a message that fits. -/
theorem Fits.decodeInto_run {data : List UInt8} (hlen : f.byteCount ≤ data.length) :
    (f.decodeInto accessor msg data).run =
      .report (.ok (msg.mapLeaves (deposit data))) (.decoding f.name f.byteCount) := by
  subst hformat
  have htake : (data.take msg.format.byteCount).length = msg.format.byteCount :=
    List.length_take_of_le hlen
  rw [MessageFormat.decodeInto_run accessor hlen, hfit.decodeFrom_run h]
  congr 2
  refine hfit.mapLeaves_congr fun l hl => ?_
  obtain ⟨-, -, -, hs⟩ := hfit.stored_bounds h hl
  have hcovered := hfit.stored_covered h hl htake.ge
  rw [absorbAll_eq_deposit (hfit.stored_sound h hl) hs hcovered (Format.Fits.pattern_lt hfit hl)]
  refine deposit_congr (fun k hk => streamBit_take ?_) l.pattern
  have hwidth : l.format.width = l.width := rfl
  omega

-- Streams that agree on the bits of the message are deposited alike.
theorem Fits.mapLeaves_deposit_congr {data data' : List UInt8}
    (hbits : ∀ i < f.totalBits, streamBit data i = streamBit data' i) :
    msg.mapLeaves (deposit data) = msg.mapLeaves (deposit data') := by
  subst hformat
  refine hfit.mapLeaves_congr fun l hl => deposit_congr (fun k hk => hbits _ ?_) l.pattern
  obtain ⟨hend, -⟩ := hfit.stored_bounds h hl
  have hwidth : l.format.width = l.width := rfl
  omega

theorem Fits.patternAt?_deposit (data : List UInt8) {l : Leaf} (hl : l ∈ f.leaves) :
    ∃ p, msg.patternAt? l = some p ∧
      (msg.mapLeaves (deposit data)).patternAt? l = some (deposit data l.format l.offset p) := by
  subst hformat
  exact hfit.patternAt?_mapLeaves h (hfit.mapLeaves_deposit data) hl

-- An integer or an enum holds what two streams have added to it, in whichever order.
theorem Fits.patternAt?_deposit_comm (data data' : List UInt8) {l : Leaf} (hl : l ∈ f.leaves)
    (hf : l.format ≠ .bool) :
    ((msg.mapLeaves (deposit data)).mapLeaves (deposit data')).patternAt? l =
      ((msg.mapLeaves (deposit data')).mapLeaves (deposit data)).patternAt? l := by
  have step := fun data : List UInt8 =>
    @Fits.patternAt?_deposit f h (msg.mapLeaves (deposit data)) hformat (hfit.mapLeaves_deposit data)
  obtain ⟨p, hp, hfirst⟩ := hfit.patternAt?_deposit h hformat data hl
  obtain ⟨q, hq, hsecond⟩ := hfit.patternAt?_deposit h hformat data' hl
  obtain rfl := Option.some.inj (hp.symm.trans hq)
  obtain ⟨p₁, hp₁, h₁⟩ := step data data' hl
  obtain ⟨p₂, hp₂, h₂⟩ := step data' data hl
  obtain rfl := Option.some.inj (hfirst.symm.trans hp₁)
  obtain rfl := Option.some.inj (hsecond.symm.trans hp₂)
  rw [h₁, h₂, deposit_comm hf]

end

/-- Decoding into a message of a compiled schema that fits its format, whatever it holds.  Data that
is too short is refused before the message is looked at.  Other data is accepted: each leaf is found
where it was, and an integer or an enum has the bits that it occupies in the stream in addition to
its own, a boolean in their place.  So only as many bits as the message has play a part, decoding
the same data again changes nothing, and for integers and enums the order of two decodings does not
matter. -/
theorem decodeInto_onto {d : SchemaDef} {schema : Schema} {m : MessageType} {msg : DynamicMessage}
    (hschema : (Schema.compile d).value = .ok schema) (hm : m ∈ schema.messages)
    (hformat : msg.format = m.format) (hfit : msg.Fits) :
    m.format.byteCount = (m.layout.totalBits + 7) / 8 ∧
    (∀ data : List UInt8, data.length < m.format.byteCount →
      let refusal := .silent (.error (.bufferTooShort m.format.byteCount data.length))
      (m.format.decodeInto accessor msg data).run = refusal ∧
        m.format.decodeInto accessor.recording msg data = pure refusal ∧
        (Action.decodeInto m.format data).run msg = msg) ∧
    (∀ data : List UInt8, m.format.byteCount ≤ data.length → ∃ msg',
      (m.format.decodeInto accessor msg data).run.value = .ok msg' ∧
        msg'.format = m.format ∧ msg'.Fits ∧
        (∀ l ∈ m.format.leaves, ∃ p, msg.patternAt? l = some p ∧
          (l.format ≠ .bool → msg'.patternAt? l = some (p ||| streamBits data l.offset l.width)) ∧
          (l.format = .bool → msg'.patternAt? l = some (streamBits data l.offset l.width))) ∧
        (m.format.decodeInto accessor msg' data).run.value = .ok msg') ∧
    (∀ data data' : List UInt8, m.format.byteCount ≤ data.length →
      m.format.byteCount ≤ data'.length →
      (∀ i < m.layout.totalBits, streamBit data i = streamBit data' i) →
        (m.format.decodeInto accessor msg data).run = (m.format.decodeInto accessor msg data').run) ∧
    (∀ data data' : List UInt8, m.format.byteCount ≤ data.length →
      m.format.byteCount ≤ data'.length → ∃ msg₁ msg₁₂ msg₂ msg₂₁,
        (m.format.decodeInto accessor msg data).run.value = .ok msg₁ ∧
        (m.format.decodeInto accessor msg₁ data').run.value = .ok msg₁₂ ∧
        (m.format.decodeInto accessor msg data').run.value = .ok msg₂ ∧
        (m.format.decodeInto accessor msg₂ data).run.value = .ok msg₂₁ ∧
        ∀ l ∈ m.format.leaves, l.format ≠ .bool → msg₁₂.patternAt? l = msg₂₁.patternAt? l) := by
  have hmade : m.Made := Schema.compile_made hschema hm
  obtain ⟨h, -, htotal⟩ := hmade.format
  have hcount := hmade.byteCount_eq
  refine ⟨hcount, fun data hshort => ⟨?_, ?_, ?_⟩, fun data hlen => ?_,
    fun data data' hlen hlen' hbits => ?_, ?_⟩
  · rw [MessageFormat.decodeInto, if_pos hshort]
    rfl
  · rw [MessageFormat.decodeInto, if_pos hshort]
  · simp only [Action.run, MessageFormat.decodeInto, if_pos hshort]
    rfl
  · have hfit' := hfit.mapLeaves_deposit data
    have hformat' : (msg.mapLeaves (deposit data)).format = m.format := hformat
    have hagain := hfit'.decodeInto_run h hformat' hlen
    rw [hfit.mapLeaves_deposit_self] at hagain
    refine ⟨_, congrArg Logged.value (hfit.decodeInto_run h hformat hlen), hformat, hfit',
      fun l hl => ?_, congrArg Logged.value hagain⟩
    obtain ⟨p, hold, hnew⟩ := hfit.patternAt?_deposit h hformat data hl
    refine ⟨p, hold, fun hf => ?_, fun hf => ?_⟩
    · rw [hnew, deposit_of_ne hf]
      rfl
    · rw [hnew, Leaf.width, hf]
      rfl
  · rw [hfit.decodeInto_run h hformat hlen, hfit.decodeInto_run h hformat hlen',
      hfit.mapLeaves_deposit_congr h hformat fun i hi => hbits i (htotal ▸ hi)]
  · intro data data' hlen hlen'
    have step := fun data : List UInt8 =>
      @Fits.decodeInto_run m.format h (msg.mapLeaves (deposit data)) hformat
        (hfit.mapLeaves_deposit data)
    exact ⟨_, _, _, _, congrArg Logged.value (hfit.decodeInto_run h hformat hlen),
      congrArg Logged.value (step data hlen'),
      congrArg Logged.value (hfit.decodeInto_run h hformat hlen'),
      congrArg Logged.value (step data' hlen),
      fun l hl hf => hfit.patternAt?_deposit_comm h hformat data data' hl hf⟩

/-- The node of a reading at a station. -/
def readingNode (temperature valid : UInt64) : Node :=
  .message ⟨"Reading", #[⟨1, "temperature", 0, .int 7⟩, ⟨2, "valid", 7, .bool⟩], 8⟩
    #[.leaf temperature, .leaf valid]

-- Seven bytes of which only the first is not zero add two bits to the wind and clear what was
-- valid; everything else stays.
theorem decodeInto_onto_station : ∃ schema m msg msg',
    (Schema.compile stationSchema).value = .ok schema ∧ m ∈ schema.messages ∧
      ofRecord m.format stationRecord = .ok msg ∧
      (m.format.decodeInto accessor msg [3, 0]).run.value = .error (.bufferTooShort 7 2) ∧
      (m.format.decodeInto accessor msg [3, 0, 0, 0, 0, 0, 0]).run.value = .ok msg' ∧
      msg.nodes = #[.leaf 5, .array #[readingNode 125 0, readingNode 9 1], .leaf 0] ∧
      msg'.nodes = #[.leaf 7, .array #[readingNode 125 0, readingNode 9 0], .leaf 0] ∧
      (m.format.decodeInto accessor msg' [3, 0, 0, 0, 0, 0, 0]).run.value = .ok msg' := by
  obtain ⟨schema, m, hschema, hm, hp⟩ := @Schema.exists_message stationSchema "Station"
    (fun m => m.format.byteCount == 7 && (ofRecord m.format stationRecord).toOption.any fun msg =>
      msg.nodes == #[.leaf 5, .array #[readingNode 125 0, readingNode 9 1], .leaf 0] &&
      (m.format.decodeInto accessor msg [3, 0, 0, 0, 0, 0, 0]).run.value.toOption.any fun msg' =>
        msg'.nodes == #[.leaf 7, .array #[readingNode 125 0, readingNode 9 0], .leaf 0]) (by cbv)
  obtain ⟨hcount, hp⟩ := Bool.and_eq_true_iff.mp hp
  obtain ⟨msg, hmsg, hp⟩ := (Option.any_eq_true _ _).mp hp
  obtain ⟨hnodes, hp⟩ := Bool.and_eq_true_iff.mp hp
  obtain ⟨msg', hmsg', hnodes'⟩ := (Option.any_eq_true _ _).mp hp
  have hcount : m.format.byteCount = 7 := eq_of_beq hcount
  have hmade : m.Made := Schema.compile_made hschema hm
  have hrecord := ok_of_toOption hmsg
  obtain ⟨hformat, hfit⟩ := (Reachable.recorded hrecord).fits hmade.format.1 hmade.format.2.1
  obtain ⟨-, hshort, hlong, -⟩ := decodeInto_onto hschema hm hformat hfit
  obtain ⟨found, hfound, -, -, -, hagain⟩ := hlong [3, 0, 0, 0, 0, 0, 0] hcount.le
  rw [hfound] at hmsg'
  obtain rfl := Option.some.inj hmsg'
  refine ⟨schema, m, msg, found, hschema, hm, hrecord, ?_, hfound, eq_of_beq hnodes,
    eq_of_beq hnodes', hagain⟩
  rw [(hshort [3, 0] (by rw [hcount]; decide)).1, hcount]
  rfl

end DynamicMessage

end Bitwire
