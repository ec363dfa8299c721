import Bitwire.Codec.Walk
import Bitwire.Proofs.Pruning

/-!
# The codec as a walk over all leaves

Encoding byte by byte through the pruned visits gives what a walk over all leaves of the message
gives, which knows neither bisection nor division: every leaf contributes the bits it owns in the
byte, and nothing if it owns none.  Decoding makes the `setByte` calls of that walk, for the leaves
that reach the byte and in their order, whatever the accessor does with them.
-/

namespace Bitwire

/-! ## 1. Reading -/

/-- All bits of a list of bytes. -/
def orAll (bytes : List UInt8) : UInt8 :=
  bytes.foldr (· ||| ·) 0

theorem orAll_append (xs ys : List UInt8) : orAll (xs ++ ys) = orAll xs ||| orAll ys := by
  induction xs with
  | nil => exact UInt8.zero_or.symm
  | cons x xs ih =>
    change x ||| orAll (xs ++ ys) = x ||| orAll xs ||| orAll ys
    rw [ih, UInt8.or_assoc]

theorem orAll_eq_zero {bytes : List UInt8} (h : ∀ b ∈ bytes, b = 0) : orAll bytes = 0 := by
  induction bytes with
  | nil => rfl
  | cons b rest ih =>
    obtain ⟨hb, hrest⟩ := List.forall_mem_cons.mp h
    change b ||| orAll rest = 0
    rw [hb, ih hrest, UInt8.zero_or]

-- Bytes that are zero add nothing.
theorem orAll_filter {β : Type} {keep : β → Bool} {g : β → UInt8} {xs : List β}
    (h : ∀ x ∈ xs, keep x = false → g x = 0) :
    orAll ((xs.filter keep).map g) = orAll (xs.map g) := by
  induction xs with
  | nil => rfl
  | cons x rest ih =>
    obtain ⟨hx, hrest⟩ := List.forall_mem_cons.mp h
    rw [List.filter_cons, List.map_cons]
    change _ = g x ||| orAll (rest.map g)
    split
    next => rw [List.map_cons, ← ih hrest]; rfl
    next hk => rw [hx (Bool.not_eq_true _ ▸ hk), UInt8.zero_or, ih hrest]

section

variable {α : Type} (A : Accessor Id α)

/-- What a part contributes to its byte; nothing if a message on the way is missing. -/
def Part.read (s : α) (part : Part) : UInt8 :=
  match (A.enter part.trail s).run with
  | some child => (A.getByte child part.place part.span.shift).run &&& part.span.mask
  | none => 0

/-- What a leaf contributes to byte `byte`: the bits of the byte that it owns, taken from the byte
of its value that lines up with them. -/
def Leaf.contribution (s : α) (byte : Nat) (l : Leaf) : UInt8 :=
  match (A.enter l.trail s).run with
  | some child =>
    (A.getByte child l.place ((8 * byte : Nat) - (l.offset : Int))).run &&&
      ownBits l.offset l.width byte
  | none => 0

theorem Part.read_inside (s : α) (place : Place) (part : Part) :
    Part.read A s (part.inside place) =
      match (A.message? s place).run with
      | some child => Part.read A child part
      | none => 0 := by
  have henter : (A.enter (place :: part.trail) s).run =
      match (A.message? s place).run with
      | some child => (A.enter part.trail child).run
      | none => none := by
    rw [Accessor.enter]
    change (match (A.message? s place).run with
      | some child => A.enter part.trail child
      | none => pure none).run = _
    split <;> rfl
  change (match (A.enter (place :: part.trail) s).run with
    | some child => (A.getByte child part.place part.span.shift).run &&& part.span.mask
    | none => 0) = _
  rw [henter]
  cases (A.message? s place).run <;> rfl

theorem Leaf.contribution_eq_zero (s : α) {byte : Nat} {l : Leaf} (h : l.reaches byte = false) :
    l.contribution A s byte = 0 := by
  have hout : ¬ (l.offset < 8 * byte + 8 ∧ 8 * byte < l.offset + l.width) := of_decide_eq_false h
  rw [contribution]
  split
  · rw [ownBits_eq_zero (by omega), UInt8.and_zero]
  · rfl

mutual

-- A visit contributes what its parts contribute.
theorem Visit.read_run : ∀ (visit : Visit) (s : α),
    (visit.read A s).run = orAll (visit.parts.map (Part.read A s))
  | .value place span, s => by
    rw [Visit.read, Visit.parts]
    exact UInt8.or_zero.symm
  | .message place inner, s => by
    rw [Visit.read, Visit.parts, List.map_map]
    have hread : Part.read A s ∘ Part.inside place = fun part =>
        match (A.message? s place).run with
        | some child => Part.read A child part
        | none => 0 := funext fun part => Part.read_inside A s place part
    rw [hread]
    change (match (A.message? s place).run with
      | some child => Visit.readAll A inner child
      | none => pure 0).run = _
    cases (A.message? s place).run with
    | some child => exact Visit.readAll_run inner child
    | none => exact (orAll_eq_zero fun b hb => (List.mem_map.mp hb).choose_spec.2.symm).symm

-- Visits contribute what their parts contribute.
theorem Visit.readAll_run : ∀ (visits : List Visit) (s : α),
    (Visit.readAll A visits s).run = orAll ((Visit.partsAll visits).map (Part.read A s))
  | [], s => rfl
  | visit :: rest, s => by
    rw [Visit.readAll, Visit.partsAll, List.map_append, orAll_append, ← Visit.read_run visit s,
      ← Visit.readAll_run rest s]
    rfl

end

namespace MessageFormat

/-- Byte `byte` of the encoding of a message, by a walk over all leaves. -/
def unprunedByte (f : MessageFormat) (s : α) (byte : Nat) : UInt8 :=
  orAll (f.leaves.map (Leaf.contribution A s byte))

theorem Sound.encodeByte_run {f : MessageFormat} (h : f.Sound) (s : α) (byte : Nat) :
    (f.encodeByte A s byte).run = f.unprunedByte A s byte := by
  rw [encodeByte, Visit.readAll_run, h.partsAll_visits, Leaf.parts, List.map_map]
  exact orAll_filter fun l _ hl => Leaf.contribution_eq_zero A s hl

theorem encodeFrom_run (f : MessageFormat) (s : α) (count byte : Nat) (out : Array UInt8) :
    (f.encodeFrom A s count byte out).run.toList =
      out.toList ++ (List.range' byte count).map fun b => (f.encodeByte A s b).run := by
  induction count generalizing byte out with
  | zero => rw [List.range'_zero, List.map_nil, List.append_nil]; rfl
  | succ count ih =>
    rw [List.range'_succ, List.map_cons]
    have := ih (byte + 1) (out.push (f.encodeByte A s byte).run)
    rw [Array.toList_push, List.append_assoc, List.singleton_append] at this
    exact this

theorem Sound.encodeBytes_run {f : MessageFormat} (h : f.Sound) (s : α) :
    (f.encodeBytes A s).run = (List.range f.byteCount).map (f.unprunedByte A s) := by
  have := f.encodeFrom_run A s f.byteCount 0 #[]
  rw [List.nil_append] at this
  rw [List.range_eq_range', ← funext (h.encodeByte_run A s)]
  exact this

end MessageFormat

end

/-! ## 2. Writing -/

/-- A `setByte` call, with the nested messages that were entered for it. -/
structure ByteWrite where
  /-- The places of the messages entered, the outermost first. -/
  trail : List Place
  place : Place
  shift : Nat
  bits : UInt8
deriving DecidableEq, Repr

/-- What was noted while a message was written. -/
structure WriteLog where
  /-- The `setByte` calls, in order. -/
  writes : List ByteWrite := []
  /-- Whether every nested message that was asked for was there. -/
  supplied : Bool := true
deriving DecidableEq, Repr

namespace WriteLog

/-- What is noted after `log` if `writes` are made and nothing is found missing. -/
def Continues (log log' : WriteLog) (writes : List ByteWrite) : Prop :=
  log'.supplied = true → log.supplied = true ∧ log'.writes = log.writes ++ writes

theorem Continues.refl (log : WriteLog) : log.Continues log [] :=
  fun h => ⟨h, (List.append_nil _).symm⟩

theorem Continues.trans {log log' log'' : WriteLog} {xs ys : List ByteWrite}
    (h : log.Continues log' xs) (h' : log'.Continues log'' ys) :
    log.Continues log'' (xs ++ ys) := by
  intro hs
  obtain ⟨hs', hw'⟩ := h' hs
  obtain ⟨hs, hw⟩ := h hs'
  exact ⟨hs, by rw [hw', hw, List.append_assoc]⟩

end WriteLog

/-- The accessor that behaves like a given one and notes what is written, and whether a nested
message is missing.  Messages are held with the way that led to them. -/
def Accessor.noting {α : Type} (A : Accessor Id α) :
    Accessor (StateM WriteLog) (List Place × α) where
  getByte s place shift := pure (A.getByte s.2 place shift).run
  setByte s place shift bits := do
    modify fun log => { log with writes := log.writes ++ [⟨s.1, place, shift, bits⟩] }
    return (s.1, (A.setByte s.2 place shift bits).run)
  message? s place :=
    pure ((A.message? s.2 place).run.map fun child => (s.1 ++ [place], child))
  messageMut? s place := do
    match (A.messageMut? s.2 place).run with
    | some (child, put) => return some ((s.1 ++ [place], child), fun c => (s.1, put c.2))
    | none =>
      modify fun log => { log with supplied := false }
      return none

/-- The call that moves a part of an input byte, behind the messages of a trail. -/
def Part.write (input : UInt8) (trail : List Place) (part : Part) : ByteWrite :=
  ⟨trail ++ part.trail, part.place, (part.span.contribution input).1,
    (part.span.contribution input).2⟩

theorem Part.write_inside (input : UInt8) (trail : List Place) (place : Place) (part : Part) :
    (part.inside place).write input trail = part.write input (trail ++ [place]) := by
  rw [write, write, inside, List.append_assoc, List.singleton_append]

section

variable {α : Type} (A : Accessor Id α)

theorem Accessor.noting_messageMut?_none (trail : List Place) {s : α} {place : Place}
    (h : (A.messageMut? s place).run = none) :
    A.noting.messageMut? (trail, s) place =
      (do modify fun log => { log with supplied := false }; return none) := by
  simp only [noting, h]

theorem Accessor.noting_messageMut?_some (trail : List Place) {s child : α} {put : α → α}
    {place : Place} (h : (A.messageMut? s place).run = some (child, put)) :
    A.noting.messageMut? (trail, s) place =
      pure (some ((trail ++ [place], child), fun c => (trail, put c.2))) := by
  simp only [noting, h]

mutual

-- Noting changes nothing in a visit, and what is noted are the calls for its parts.
theorem Visit.write_noting (input : UInt8) : ∀ (visit : Visit) (trail : List Place) (s : α)
    (log : WriteLog), ∃ log', (visit.write A.noting input (trail, s)).run log =
        ((trail, (visit.write A input s).run), log') ∧
      log.Continues log' (visit.parts.map (Part.write input trail))
  | .value place span, trail, s, log => by
    let own := span.contribution input
    refine ⟨{ log with writes := log.writes ++ [⟨trail, place, own.1, own.2⟩] }, rfl,
      fun h => ⟨h, ?_⟩⟩
    rw [Visit.parts, List.map_singleton, Part.write, List.append_nil]
  | .message place inner, trail, s, log => by
    rw [Visit.write, Visit.write, Visit.parts, List.map_map]
    have hwrite : Part.write input trail ∘ Part.inside place = Part.write input (trail ++ [place]) :=
      funext fun part => part.write_inside input trail place
    rw [hwrite]
    cases h : (A.messageMut? s place).run with
    | none =>
      have hplain : A.messageMut? s place = none := h
      -- the walk stops at a message that is missing, and the log says so
      refine ⟨{ log with supplied := false }, ?_, fun h => absurd h Bool.false_ne_true⟩
      rw [hplain, A.noting_messageMut?_none trail h]
      rfl
    | some found =>
      obtain ⟨child, put⟩ := found
      have hplain : A.messageMut? s place = some (child, put) := h
      obtain ⟨log', hrun, hlog⟩ := Visit.writeAll_noting input inner (trail ++ [place]) child log
      refine ⟨log', ?_, hlog⟩
      rw [hplain, A.noting_messageMut?_some trail h, pure_bind]
      change StateT.run (Visit.writeAll A.noting input inner (trail ++ [place], child) >>=
        fun c => pure (trail, put c.2)) log = _
      rw [StateT.run_bind, hrun]
      rfl

-- Noting changes nothing in a list of visits, and what is noted are the calls for its parts.
theorem Visit.writeAll_noting (input : UInt8) : ∀ (visits : List Visit) (trail : List Place) (s : α)
    (log : WriteLog), ∃ log', (Visit.writeAll A.noting input visits (trail, s)).run log =
        ((trail, (Visit.writeAll A input visits s).run), log') ∧
      log.Continues log' ((Visit.partsAll visits).map (Part.write input trail))
  | [], trail, s, log => ⟨log, rfl, .refl log⟩
  | visit :: rest, trail, s, log => by
    obtain ⟨log', hrun, hlog⟩ := Visit.write_noting input visit trail s log
    obtain ⟨log'', hrun', hlog'⟩ :=
      Visit.writeAll_noting input rest trail (visit.write A input s).run log'
    refine ⟨log'', ?_, ?_⟩
    · rw [Visit.writeAll, StateT.run_bind, hrun]
      exact hrun'
    · rw [Visit.partsAll, List.map_append]
      exact hlog.trans hlog'

end

end

/-- The call that moves what byte `byte` holds for a leaf: the bits that the leaf owns, moved to
where they belong in its value. -/
def Leaf.write (byte : Nat) (input : UInt8) (l : Leaf) : ByteWrite :=
  let own := input &&& ownBits l.offset l.width byte
  if l.offset ≤ 8 * byte then ⟨l.trail, l.place, 8 * byte - l.offset, own⟩
  else ⟨l.trail, l.place, 0, own >>> UInt8.ofNat (l.offset - 8 * byte)⟩

theorem Leaf.write_part (byte : Nat) (input : UInt8) (l : Leaf) :
    (l.part byte).write input [] = l.write byte input := by
  have hshift : ((8 * byte : Nat) : Int) - (l.offset : Int) = (l.part byte).span.shift := rfl
  rw [Part.write, ByteSpan.contribution, Leaf.write, ← hshift, List.nil_append]
  by_cases h : l.offset ≤ 8 * byte
  · rw [if_pos h, if_pos (by omega)]
    rw [show (((8 * byte : Nat) : Int) - (l.offset : Int)).toNat = 8 * byte - l.offset by omega]
    rfl
  · rw [if_neg h, if_neg (by omega)]
    rw [show (-(((8 * byte : Nat) : Int) - (l.offset : Int))).toNat = l.offset - 8 * byte by omega]
    rfl

namespace MessageFormat

/-- The calls that decoding byte `byte` makes, by a walk over all leaves. -/
def unprunedWrites (f : MessageFormat) (byte : Nat) (input : UInt8) : List ByteWrite :=
  (f.leaves.filter (Leaf.reaches byte)).map (Leaf.write byte input)

theorem Sound.writes_eq {f : MessageFormat} (h : f.Sound) (byte : Nat) (input : UInt8) :
    (Visit.partsAll (f.visits byte)).map (Part.write input []) = f.unprunedWrites byte input := by
  rw [h.partsAll_visits, Leaf.parts, List.map_map]
  exact List.map_congr_left fun l _ => l.write_part byte input

section

variable {f : MessageFormat} (h : f.Sound) {α : Type} (A : Accessor Id α)

include h

theorem Sound.decodeFrom_noting (data : List UInt8) (byte : Nat) (s : α) (log : WriteLog) :
    ∃ log', (f.decodeFrom A.noting data byte ([], s)).run log =
        (([], (f.decodeFrom A data byte s).run), log') ∧
      log.Continues log' ((data.zipIdx byte).flatMap fun (input, i) => f.unprunedWrites i input) := by
  induction data generalizing byte s log with
  | nil => exact ⟨log, rfl, .refl log⟩
  | cons input rest ih =>
    obtain ⟨log', hrun, hlog⟩ := Visit.writeAll_noting A input (f.visits byte) [] s log
    obtain ⟨log'', hrun', hlog'⟩ := ih (byte + 1) (Visit.writeAll A input (f.visits byte) s).run log'
    refine ⟨log'', ?_, ?_⟩
    · rw [decodeFrom, StateT.run_bind, hrun]
      exact hrun'
    · rw [List.zipIdx_cons, List.flatMap_cons]
      rw [h.writes_eq] at hlog
      exact hlog.trans hlog'

theorem Sound.decodeInto_noting {data : List UInt8} (hlen : f.byteCount ≤ data.length) (s : α) :
    ∃ log, (f.decodeInto A.noting ([], s) data).run {} =
        (.report (.ok ([], (f.decodeFrom A (data.take f.byteCount) 0 s).run))
          (.decoding f.name f.byteCount), log) ∧
      WriteLog.Continues {} log
        ((data.take f.byteCount).zipIdx.flatMap fun (input, i) => f.unprunedWrites i input) := by
  obtain ⟨log, hrun, hlog⟩ := h.decodeFrom_noting A (data.take f.byteCount) 0 s {}
  refine ⟨log, ?_, hlog⟩
  rw [decodeInto, if_neg (Nat.not_lt.mpr hlen), StateT.run_bind, hrun]
  rfl

end

theorem decodeInto_run {f : MessageFormat} {α : Type} (A : Accessor Id α) {data : List UInt8}
    (hlen : f.byteCount ≤ data.length) (s : α) : (f.decodeInto A s data).run =
      .report (.ok (f.decodeFrom A (data.take f.byteCount) 0 s).run)
        (.decoding f.name f.byteCount) := by
  rw [decodeInto, if_neg (Nat.not_lt.mpr hlen)]
  rfl

/-! ## 3. Buffers -/

section

variable (f : MessageFormat) {α : Type} (A : Accessor Id α) (s : α)

-- The bytes from `byte` on are those of the message, and the others stay.
theorem encodeOver_run {count byte : Nat} {buffer : Array UInt8} (hlen : byte + count ≤ buffer.size) :
    ((f.encodeOver A s count byte).run buffer).run.2.toList =
      buffer.toList.take byte ++ (List.range' byte count).map (fun i => (f.encodeByte A s i).run) ++
        buffer.toList.drop (byte + count) := by
  induction count generalizing byte buffer with
  | zero =>
    show buffer.toList = _
    rw [List.range'_zero, List.map_nil, List.append_nil, Nat.add_zero, List.take_append_drop]
  | succ count ih =>
    have hbyte : byte < buffer.toList.length := by
      rw [Array.length_toList]
      omega
    have hset : (buffer.setIfInBounds byte (f.encodeByte A s byte).run).toList =
        buffer.toList.set byte (f.encodeByte A s byte).run := Array.toList_setIfInBounds
    show ((f.encodeOver A s count (byte + 1)).run
      (buffer.setIfInBounds byte (f.encodeByte A s byte).run)).run.2.toList = _
    rw [ih (by rw [Array.size_setIfInBounds]; omega), hset, List.range'_succ, List.map_cons,
      List.drop_set_of_lt (by omega), List.take_add_one, List.take_set_of_le (Nat.le_refl byte),
      List.getElem?_set_self hbyte, Nat.add_right_comm, Nat.add_assoc]
    simp

theorem encodeInto_run_of_short {buffer : Array UInt8} (hlen : buffer.size < f.byteCount) :
    ((f.encodeInto A s).run buffer).run =
      (.silent (.error (.bufferTooShort f.byteCount buffer.size)), buffer) := by
  show (if buffer.size < f.byteCount then _ else _ : StateT (Array UInt8) Id _).run buffer = _
  rw [if_pos hlen]
  rfl

theorem encodeInto_run {buffer : Array UInt8} (hlen : f.byteCount ≤ buffer.size) :
    ((f.encodeInto A s).run buffer).run = (.report (.ok f.byteCount) (.encoding f.name f.byteCount),
      ((f.encodeOver A s f.byteCount 0).run buffer).run.2) := by
  show (if buffer.size < f.byteCount then _ else _ : StateT (Array UInt8) Id _).run buffer = _
  rw [if_neg (Nat.not_lt.mpr hlen)]
  rfl

end

/-! ## 4. The codec -/

/-- The codec of a sound format is the walk over all leaves, for every accessor and every message.
Encoding gives its bytes, also at the front of a longer buffer, whose other bytes stay; a buffer
that is too short stays as it is.  Decoding makes its `setByte` calls, byte after byte, as long as
no nested message is missing. -/
theorem pruned_walk_eq_unpruned {f : MessageFormat} (h : f.Sound) {α : Type} (A : Accessor Id α)
    (s : α) :
    (f.encode A s).run.value = (List.range f.byteCount).map (f.unprunedByte A s) ∧
    (∀ (byte : Nat) (input : UInt8) (log : WriteLog),
      let noted := (Visit.writeAll A.noting input (f.visits byte) ([], s)).run log
      noted.2.supplied = true → noted.2.writes = log.writes ++ f.unprunedWrites byte input) ∧
    (∀ data : List UInt8, f.byteCount ≤ data.length →
      let noted := (f.decodeInto A.noting ([], s) data).run {}
      noted.1.value = (f.decodeInto A s data).run.value.map (fun s' => ([], s')) ∧
      (noted.2.supplied = true → noted.2.writes =
        (data.take f.byteCount).zipIdx.flatMap fun (input, byte) => f.unprunedWrites byte input)) ∧
    (∀ buffer : Array UInt8, f.byteCount ≤ buffer.size →
      let encoded := ((f.encodeInto A s).run buffer).run
      encoded.1.value = .ok f.byteCount ∧ encoded.2.toList =
        (List.range f.byteCount).map (f.unprunedByte A s) ++ buffer.toList.drop f.byteCount) ∧
    (∀ buffer : Array UInt8, buffer.size < f.byteCount →
      let encoded := ((f.encodeInto A s).run buffer).run
      encoded.1.value = .error (.bufferTooShort f.byteCount buffer.size) ∧ encoded.2 = buffer) := by
  refine ⟨h.encodeBytes_run A s, ?_, ?_, ?_, ?_⟩
  · intro byte input log
    obtain ⟨log', hrun, hlog⟩ := Visit.writeAll_noting A input (f.visits byte) [] s log
    rw [h.writes_eq] at hlog
    simp only [hrun]
    exact fun hs => (hlog hs).2
  · intro data hlen
    obtain ⟨log, hrun, hlog⟩ := h.decodeInto_noting A hlen s
    simp only [hrun, decodeInto_run A hlen]
    exact ⟨rfl, fun hs => (hlog hs).2⟩
  · intro buffer hlen
    have hover := f.encodeOver_run A s (Nat.zero_add _ ▸ hlen : 0 + f.byteCount ≤ buffer.size)
    have hbytes : (List.range' 0 f.byteCount).map (fun i => (f.encodeByte A s i).run) =
        (List.range f.byteCount).map (f.unprunedByte A s) := by
      rw [← List.range_eq_range']
      exact List.map_congr_left fun byte _ => h.encodeByte_run A s byte
    rw [hbytes, List.take_zero, List.nil_append, Nat.zero_add] at hover
    rw [f.encodeInto_run A s hlen]
    exact ⟨rfl, hover⟩
  · intro buffer hlen
    rw [f.encodeInto_run_of_short A s hlen]
    exact ⟨rfl, rfl⟩

/-- Readings of eight bits from bit 3 on, with a grid of five-bit cells behind them. -/
def unaligned : MessageFormat :=
  ⟨"Unaligned", #[⟨1, "small", 0, .uint 3⟩,
    ⟨2, "readings", 3, .array (.message ⟨"Reading",
      #[⟨1, "temperature", 0, .int 7⟩, ⟨2, "valid", 7, .bool⟩], 8⟩) 2⟩,
    ⟨5, "grid", 19, .array (.array (.uint 5) 3) 2⟩], 49⟩

theorem unaligned_sound : unaligned.Sound := by
  simp [unaligned, MessageFormat.Sound, Format.Sound, Format.AllSound, Format.width,
    PlacedField.stop, Format.maxWidth]

theorem pruned_walk_eq_unpruned_unaligned :
    let A := Accessor.constant 5 true
    let data : List UInt8 := [1, 2, 3, 4, 5, 6, 7]
    let noted := (unaligned.decodeInto A.noting ([], ()) data).run {}
    unaligned.Sound ∧
    (unaligned.encode A ()).run.value = [45, 44, 44, 165, 148, 82, 0] ∧
    (unaligned.byteCount ≤ data.length ∧ noted.2.supplied = true ∧ noted.2.writes =
      (data.take 7).zipIdx.flatMap fun (input, byte) => unaligned.unprunedWrites byte input) ∧
    ((unaligned.encodeInto A ()).run #[9, 9, 9, 9, 9, 9, 9, 9]).run.2.toList =
      [45, 44, 44, 165, 148, 82, 0, 9] ∧
    ((unaligned.encodeInto A ()).run #[9, 9]).run.2 = #[9, 9] := by
  obtain ⟨hencode, -, hdecode, hlong, hshort⟩ :=
    pruned_walk_eq_unpruned unaligned_sound (Accessor.constant 5 true) ()
  refine ⟨unaligned_sound, hencode.trans (by decide +kernel), ⟨by decide, by decide +kernel, ?_⟩,
    (hlong #[9, 9, 9, 9, 9, 9, 9, 9] (by decide)).2.trans (by decide +kernel),
    (hshort #[9, 9] (by decide)).2⟩
  exact (hdecode [1, 2, 3, 4, 5, 6, 7] (by decide)).2 (by decide +kernel)

end MessageFormat

end Bitwire
