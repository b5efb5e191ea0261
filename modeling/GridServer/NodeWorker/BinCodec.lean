import GridServer.Library.Chunk
import GridServer.Library.Framing
import GridServer.NodeWorker.State

namespace GridServer.NodeWorker
open Library

/-- `LengthDelimitedCodec` with a length field of eight bytes, as the third-party package has it:
what it keeps between calls, `decode` on the bytes in the buffer, and `encode`. -/
structure LengthDelimitedCodec where
  State : Type
  new : State
  /-- The bytes that the codec has taken out of the buffer of a frame that is not complete. -/
  pending : State → Bytes
  decode : State → Bytes → Except String (Option Bytes × State × Bytes)
  encode : Bytes → Bytes → Except String Bytes

/-- The length comes first, in eight bytes with the highest first, and counts the payload alone.
A frame comes out whole as soon as it is complete, and until then nothing of it is lost. -/
structure LengthDelimitedCodec.Lawful (codec : LengthDelimitedCodec) : Prop where
  pending_new : codec.pending codec.new = []
  encode : ∀ payload dst, payload.length < 2 ^ 63 →
    codec.encode payload dst = .ok (dst ++ frame payload)
  complete : ∀ state src payload rest, payload.length < 2 ^ 63 →
    codec.pending state ++ src = frame payload ++ rest →
    ∃ state', codec.decode state src = .ok (some payload, state', rest) ∧
      codec.pending state' = []
  incomplete : ∀ state src payload rest, payload.length < 2 ^ 63 →
    codec.pending state ++ src ++ rest = frame payload → rest ≠ [] →
    ∃ state' src', codec.decode state src = .ok (none, state', src') ∧
      codec.pending state' ++ src' = codec.pending state ++ src

/-- `bincode::serde` with the standard configuration. -/
structure Bincode (T : Type) where
  encodeToVec : T → Except String Bytes
  decodeFromSlice : Bytes → Except String (T × Nat)
  decodeFromStdRead : Bytes → Except String T

structure Bincode.Lawful {T : Type} (bincode : Bincode T) : Prop where
  slice : ∀ item bytes, bincode.encodeToVec item = .ok bytes →
    ∃ n, bincode.decodeFromSlice bytes = .ok (item, n)
  stdRead : ∀ item bytes, bincode.encodeToVec item = .ok bytes →
    bincode.decodeFromStdRead bytes = .ok item

namespace BinCodec
variable {T : Type} (codec : LengthDelimitedCodec) (bincode : Bincode T)

/-- `Decoder for BinCodec`, on the codec's state and the buffer. -/
def decode (p : codec.State × Bytes) : Except String (Option T × codec.State × Bytes) := do
  let (bytes, p) ← codec.decode p.1 p.2
  match bytes with
  | none => return (none, p)
  | some bytes =>
    let item ← bincode.decodeFromStdRead bytes
    return (some item, p)

/-- `Encoder for BinCodec`. -/
def encode (item : T) (dst : Bytes) : Except String Bytes := do
  let bytes ← bincode.encodeToVec item
  codec.encode bytes dst

/-- The messages that a sink is given one after another. -/
def encodeAll (items : List T) : Except String Bytes :=
  items.foldlM (fun dst item => encode codec bincode item dst) []

/-- What `FramedRead` does: it takes in a chunk, hands out items as long as `decode` finds one, and
waits for the next chunk when there is none. -/
inductive Receives : codec.State × Bytes → List Bytes → List T → codec.State × Bytes → Prop where
  | nil (p : codec.State × Bytes) : Receives p [] [] p
  | chunk {p q r u : codec.State × Bytes} {chunk : Bytes} {chunks : List Bytes}
      {items items' : List T}
      (yields : Yields (decode codec bincode) (p.1, p.2 ++ chunk) items q)
      (waits : decode codec bincode q = .ok (none, r)) (later : Receives r chunks items' u) :
      Receives p (chunk :: chunks) (items ++ items') u

end BinCodec

namespace Executor

/-- `send_result`, with all that was written to the stream before it. -/
def sendResult (bincode : Bincode ExecutorResult) (stream : Bytes)
    (executorResult : ExecutorResult) : Except String Bytes := do
  let data ← bincode.encodeToVec executorResult
  let len := beBytes 8 data.length
  return stream ++ len ++ data

def sendResults (bincode : Bincode ExecutorResult) (results : List ExecutorResult) :
    Except String Bytes :=
  results.foldlM (sendResult bincode) []

/-- `recv_job`, on the chunks that are still to come. -/
def recvJob (bincode : Bincode ExecutorJob) (stream : List Bytes) :
    Except String (ExecutorJob × List Bytes) := do
  let some (len, stream) := readExact stream 8 | .error "Unable to read size-prefix"
  let some (vec, stream) := readExact stream (fromBe len) | .error "Unable to read data"
  match bincode.decodeFromSlice vec with
  | .ok (job, _) => return (job, stream)
  | .error _ => .error "Unable to deserialize Job"

/-- The loop of `start` asks for one job after another. -/
def nextJob (bincode : Bincode ExecutorJob) (stream : List Bytes) :
    Except String (Option ExecutorJob × List Bytes) := do
  let (job, stream) ← recvJob bincode stream
  return (some job, stream)

end Executor

/-- The items encode to these payloads, none of which is too long for a frame. -/
def Encodes {T : Type} (bincode : Bincode T) (items : List T) (payloads : List Bytes) : Prop :=
  List.Forall₂ (fun item payload =>
    bincode.encodeToVec item = .ok payload ∧ payload.length < 2 ^ 63) items payloads

/-- No item encodes to a payload of 2^63 bytes or more. -/
def Short {T : Type} (bincode : Bincode T) (items : List T) : Prop :=
  ∀ item ∈ items, ∀ payload, bincode.encodeToVec item = .ok payload → payload.length < 2 ^ 63

section
variable {T : Type} {codec : LengthDelimitedCodec} {bincode : Bincode T}

/-- A loop that writes one frame for each item writes the frames of the payloads. -/
theorem frames_of_foldlM {write : Bytes → T → Except String Bytes}
    (framed : ∀ dst item bytes, (∀ payload, bincode.encodeToVec item = .ok payload →
      payload.length < 2 ^ 63) → write dst item = .ok bytes →
      ∃ payload, bincode.encodeToVec item = .ok payload ∧ bytes = dst ++ frame payload)
    {items : List T} {dst bytes : Bytes} (short : Short bincode items)
    (h : items.foldlM write dst = .ok bytes) :
    ∃ payloads, Encodes bincode items payloads ∧ bytes = dst ++ frames payloads := by
  induction items generalizing dst with
  | nil =>
    cases h
    exact ⟨[], .nil, (List.append_nil _).symm⟩
  | cons item items ih =>
    rw [List.foldlM_cons] at h
    obtain ⟨bytes₁, hfirst, hrest⟩ := bind_ok.mp h
    have hitem := short item List.mem_cons_self
    obtain ⟨payload, hpayload, rfl⟩ := framed dst item bytes₁ hitem hfirst
    obtain ⟨payloads, hencodes, rfl⟩ :=
      ih (fun i hi => short i (List.mem_cons_of_mem _ hi)) hrest
    refine ⟨payload :: payloads, .cons ⟨hpayload, hitem payload hpayload⟩ hencodes, ?_⟩
    rw [frames_cons, List.append_assoc]

theorem encodeAll_frames (lawful : codec.Lawful) {items : List T} {bytes : Bytes}
    (short : Short bincode items) (h : BinCodec.encodeAll codec bincode items = .ok bytes) :
    ∃ payloads, Encodes bincode items payloads ∧ bytes = frames payloads := by
  refine frames_of_foldlM ?_ short h
  intro dst item bytes hitem hencode
  obtain ⟨payload, hpayload, hwrite⟩ := bind_ok.mp hencode
  rw [lawful.encode payload dst (hitem payload hpayload)] at hwrite
  exact ⟨payload, hpayload, (Except.ok.inj hwrite).symm⟩

theorem sendResults_frames {bincode : Bincode ExecutorResult} {results : List ExecutorResult}
    {bytes : Bytes} (short : Short bincode results)
    (h : Executor.sendResults bincode results = .ok bytes) :
    ∃ payloads, Encodes bincode results payloads ∧ bytes = frames payloads := by
  refine frames_of_foldlM ?_ short h
  intro dst item bytes _ hsend
  obtain ⟨payload, hpayload, hwrite⟩ := bind_ok.mp hsend
  refine ⟨payload, hpayload, ?_⟩
  rw [← Except.ok.inj hwrite, frame, List.append_assoc]

/-- One frame is one job, in whatever chunks it arrives. -/
theorem nextJob_frame {bincode : Bincode ExecutorJob} (lawful : bincode.Lawful)
    {job : ExecutorJob} {payload rest : Bytes} {chunks : List Bytes}
    (hjob : bincode.encodeToVec job = .ok payload) (hlength : payload.length < 2 ^ 63)
    (h : chunks.flatten = frame payload ++ rest) :
    ∃ chunks', Executor.nextJob bincode chunks = .ok (some job, chunks') ∧
      chunks'.flatten = rest := by
  rw [frame, List.append_assoc] at h
  obtain ⟨chunks₁, hlen, h₁⟩ := readExact_append h
  obtain ⟨chunks₂, hvec, h₂⟩ := readExact_append h₁
  obtain ⟨n, hslice⟩ := lawful.slice job payload hjob
  refine ⟨chunks₂, ?_, h₂⟩
  rw [length_beBytes] at hlen
  simp [Executor.nextJob, Executor.recvJob, hlen, fromBe_length hlength, hvec, hslice]

theorem yields_jobs {bincode : Bincode ExecutorJob} (lawful : bincode.Lawful)
    {jobs : List ExecutorJob} {payloads chunks : List Bytes}
    (encodes : Encodes bincode jobs payloads) (h : chunks.flatten = frames payloads) :
    ∃ chunks', Yields (Executor.nextJob bincode) chunks jobs chunks' ∧ chunks'.flatten = [] := by
  induction encodes generalizing chunks with
  | nil => exact ⟨chunks, .nil chunks, h⟩
  | cons first _ ih =>
    obtain ⟨chunks₁, hfirst, h₁⟩ := nextJob_frame lawful first.1 first.2 h
    obtain ⟨chunks₂, hrest, h₂⟩ := ih h₁
    exact ⟨chunks₂, .cons hfirst hrest, h₂⟩

/-- All bytes that have arrived and are not part of an item that was handed out. -/
def LengthDelimitedCodec.held (codec : LengthDelimitedCodec) (p : codec.State × Bytes) : Bytes :=
  codec.pending p.1 ++ p.2

/-- No frame is complete. -/
def Waiting (codec : LengthDelimitedCodec) (p : codec.State × Bytes) (payloads : List Bytes) :
    Prop :=
  ∀ payload ∈ payloads.head?, (codec.held p).length < (frame payload).length

/-- `decode` hands out the items whose frames are complete, and leaves the rest as it is. -/
theorem drain (lawful : codec.Lawful) (hbincode : bincode.Lawful) {items : List T}
    {payloads : List Bytes} (encodes : Encodes bincode items payloads)
    {p : codec.State × Bytes} {later : Bytes} (h : codec.held p ++ later = frames payloads) :
    ∃ done rest payloads' q r, items = done ++ rest ∧ Encodes bincode rest payloads' ∧
      Yields (BinCodec.decode codec bincode) p done q ∧
      BinCodec.decode codec bincode q = .ok (none, r) ∧
      codec.held r ++ later = frames payloads' ∧ Waiting codec r payloads' := by
  induction encodes generalizing p with
  | nil =>
    obtain ⟨hheld, rfl⟩ := List.append_eq_nil_iff.mp h
    obtain ⟨state, src, hdecode, hsame⟩ := lawful.incomplete p.1 p.2 [] (frame []) (by simp)
      (by rw [← LengthDelimitedCodec.held, hheld, List.nil_append]) (by simp [frame, beBytes])
    refine ⟨[], [], [], p, (state, src), rfl, .nil, .nil p, ?_, ?_, by simp [Waiting]⟩
    · simp [BinCodec.decode, hdecode]
    · rw [LengthDelimitedCodec.held, hsame, ← LengthDelimitedCodec.held, h]
  | @cons item payload items payloads first encodes ih =>
    rw [frames_cons] at h
    have hsplit : (∃ more, codec.held p = frame payload ++ more ∧ frames payloads = more ++ later) ∨
        ∃ more, more ≠ [] ∧ codec.held p ++ more = frame payload := by
      rcases List.append_eq_append_iff.mp h with ⟨more, hframe, hlater⟩ | ⟨more, hheld, hrest⟩
      · by_cases hmore : more = []
        · subst hmore
          exact .inl ⟨[], by simp [hframe], by simpa using hlater.symm⟩
        · exact .inr ⟨more, hmore, hframe.symm⟩
      · exact .inl ⟨more, hheld, hrest⟩
    rcases hsplit with ⟨more, hheld, hrest⟩ | ⟨more, hmore, hframe⟩
    · obtain ⟨state, hdecode, hpending⟩ := lawful.complete p.1 p.2 payload more first.2 hheld
      have hnext : codec.held (state, more) = more := by
        rw [LengthDelimitedCodec.held, hpending, List.nil_append]
      obtain ⟨done, rest, payloads', q, r, rfl, hencodes, hyields, hnone, hlater, hwaiting⟩ :=
        ih (p := (state, more)) (by rw [hnext, hrest])
      refine ⟨item :: done, rest, payloads', q, r, rfl, hencodes, .cons ?_ hyields, hnone, hlater,
        hwaiting⟩
      simp [BinCodec.decode, hdecode, hbincode.stdRead item payload first.1]
    · obtain ⟨state, src, hdecode, hsame⟩ :=
        lawful.incomplete p.1 p.2 payload more first.2 hframe hmore
      have hstays : codec.held (state, src) = codec.held p := hsame
      refine ⟨[], item :: items, payload :: payloads, p, (state, src), rfl, .cons first encodes,
        .nil p, ?_, by rw [hstays, h, frames_cons], ?_⟩
      · simp [BinCodec.decode, hdecode]
      · intro payload' hpayload'
        obtain rfl : payload = payload' := Option.some.inj hpayload'
        have hpos := List.length_pos_iff.mpr hmore
        rw [hstays, ← hframe, List.length_append]
        omega

/-- The same over any number of chunks. -/
theorem receives (lawful : codec.Lawful) (hbincode : bincode.Lawful) {items : List T}
    {payloads chunks : List Bytes} (encodes : Encodes bincode items payloads)
    {p : codec.State × Bytes} {later : Bytes} (waiting : Waiting codec p payloads)
    (h : codec.held p ++ chunks.flatten ++ later = frames payloads) :
    ∃ done rest payloads' u, items = done ++ rest ∧ Encodes bincode rest payloads' ∧
      BinCodec.Receives codec bincode p chunks done u ∧
      codec.held u ++ later = frames payloads' ∧ Waiting codec u payloads' := by
  induction chunks generalizing p items payloads with
  | nil =>
    refine ⟨[], items, payloads, p, rfl, encodes, .nil p, ?_, waiting⟩
    simpa using h
  | cons chunk chunks ih =>
    have hheld : codec.held (p.1, p.2 ++ chunk) ++ (chunks.flatten ++ later) = frames payloads := by
      rw [← h]
      simp [LengthDelimitedCodec.held]
    obtain ⟨done, rest, payloads₁, q, r, rfl, hencodes, hyields, hnone, hr, hwaiting⟩ :=
      drain lawful hbincode encodes hheld
    obtain ⟨done', rest', payloads₂, u, rfl, hencodes', hreceives, hu, hwaiting'⟩ :=
      ih hencodes hwaiting (by rw [List.append_assoc, hr])
    exact ⟨done ++ done', rest', payloads₂, u, by rw [List.append_assoc], hencodes',
      .chunk hyields hnone hreceives, hu, hwaiting'⟩

theorem sendResults_of_encodes {bincode : Bincode ExecutorResult} {results : List ExecutorResult}
    {payloads : List Bytes} (encodes : Encodes bincode results payloads) (dst : Bytes) :
    results.foldlM (Executor.sendResult bincode) dst = .ok (dst ++ frames payloads) := by
  induction encodes generalizing dst with
  | nil => rw [frames_nil, List.append_nil]; rfl
  | @cons result payload results payloads first _ ih =>
    have hsend : Executor.sendResult bincode dst result = .ok (dst ++ frame payload) := by
      simp [Executor.sendResult, first.1, frame]
    rw [List.foldlM_cons, hsend, ok_bind, ih, frames_cons, List.append_assoc]

end

/-- The executor reads back the jobs that were encoded for it, and the decoder the results that it
has sent, in order and whatever the chunks are. With the rest still to come, the decoder has handed
out the results that are complete; it asks for more, and has lost nothing of the next one. -/
theorem executor_channel {codec : LengthDelimitedCodec} (lawful : codec.Lawful)
    {jobCode : Bincode ExecutorJob} (hjob : jobCode.Lawful)
    {resultCode : Bincode ExecutorResult} (hresult : resultCode.Lawful) :
    (∀ jobs bytes chunks, Short jobCode jobs →
      BinCodec.encodeAll codec jobCode jobs = .ok bytes → chunks.flatten = bytes →
      ∃ chunks', Yields (Executor.nextJob jobCode) chunks jobs chunks' ∧ chunks'.flatten = []) ∧
    ∀ results bytes chunks later, Short resultCode results →
      Executor.sendResults resultCode results = .ok bytes → chunks.flatten ++ later = bytes →
      ∃ done rest u, results = done ++ rest ∧
        BinCodec.Receives codec resultCode (codec.new, []) chunks done u ∧
        Executor.sendResults resultCode rest = .ok (codec.held u ++ later) ∧
        (∀ result ∈ rest.head?, ∀ payload, resultCode.encodeToVec result = .ok payload →
          (codec.held u).length < 8 + payload.length) ∧
        (later = [] → rest = []) := by
  constructor
  · intro jobs bytes chunks short hencode hchunks
    obtain ⟨payloads, encodes, rfl⟩ := encodeAll_frames lawful short hencode
    exact yields_jobs hjob encodes hchunks
  · intro results bytes chunks later short hsend hchunks
    obtain ⟨payloads, encodes, rfl⟩ := sendResults_frames short hsend
    have hnew : codec.held (codec.new, []) = [] := by
      rw [LengthDelimitedCodec.held, lawful.pending_new, List.append_nil]
    have hwaiting : Waiting codec (codec.new, []) payloads := by
      intro payload _
      rw [hnew, length_frame, List.length_nil]
      omega
    obtain ⟨done, rest, payloads', u, rfl, encodes', hreceives, hu, hwaiting'⟩ :=
      receives lawful hresult encodes hwaiting (by rw [hnew, List.nil_append, hchunks])
    refine ⟨done, rest, u, rfl, hreceives, ?_, ?_, ?_⟩
    · rw [hu, Executor.sendResults, sendResults_of_encodes encodes', List.nil_append]
    · cases encodes' with
      | nil => simp
      | cons first _ =>
        intro result hr payload hpayload
        obtain rfl := Option.some.inj hr
        obtain rfl := Except.ok.inj (first.1.symm.trans hpayload)
        rw [← length_frame]
        exact hwaiting' _ rfl
    · rintro rfl
      cases encodes' with
      | nil => rfl
      | cons first _ =>
        have hlt := hwaiting' _ rfl
        rw [List.append_nil] at hu
        rw [hu, frames_cons, List.length_append] at hlt
        omega

section Instance

/-- Whether the codec waits for a length or for that many bytes. -/
inductive DecodeState where
  | head
  | data (n : UInt64)

def decodeHead (state : DecodeState) (src : Bytes) : Option (UInt64 × Bytes) :=
  match state with
  | .head => if src.length < 8 then none else some (UInt64.ofNat (fromBe (src.take 8)), src.drop 8)
  | .data n => some (n, src)

/-- The codec as it is built: it takes the eight bytes of the length out of the buffer as soon as
they are there, and keeps the length. -/
def lengthDelimited : LengthDelimitedCodec where
  State := DecodeState
  new := .head
  pending
    | .head => []
    | .data n => beBytes 8 n.toNat
  decode state src :=
    match decodeHead state src with
    | none => .ok (none, .head, src)
    | some (n, src) =>
      if src.length < n.toNat then .ok (none, .data n, src)
      else .ok (some (src.take n.toNat), .head, src.drop n.toNat)
  encode payload dst := .ok (dst ++ frame payload)

/-- The length of a frame that begins with what is held, and what is held behind the length. -/
theorem decodeHead_frame {state : DecodeState} {src : Bytes} (payload more rest : Bytes)
    (hlength : payload.length < 2 ^ 63) (hheld : 8 ≤ (lengthDelimited.held (state, src)).length)
    (h : lengthDelimited.held (state, src) ++ more = frame payload ++ rest) :
    ∃ n src', decodeHead state src = some (n, src') ∧ n.toNat = payload.length ∧
      lengthDelimited.held (state, src) = beBytes 8 payload.length ++ src' ∧
      src' ++ more = payload ++ rest := by
  rw [frame, List.append_assoc] at h
  cases state with
  | head =>
    change src ++ more = _ at h
    change 8 ≤ src.length at hheld
    have hsplit : src.take 8 ++ (src.drop 8 ++ more) =
        beBytes 8 payload.length ++ (payload ++ rest) := by
      rw [← List.append_assoc, List.take_append_drop, h]
    obtain ⟨hhead, hdata⟩ := List.append_inj hsplit (by simp [hheld])
    refine ⟨UInt64.ofNat (fromBe (src.take 8)), src.drop 8, if_neg (by omega), ?_, ?_, hdata⟩
    · rw [hhead, fromBe_length hlength, UInt64.toNat_ofNat',
        Nat.mod_eq_of_lt (by omega)]
    · rw [← hhead]
      exact (List.take_append_drop 8 src).symm
  | data n =>
    change beBytes 8 n.toNat ++ src ++ more = _ at h
    rw [List.append_assoc] at h
    obtain ⟨hhead, hdata⟩ := List.append_inj h (by simp)
    have hn : n.toNat = payload.length := by
      have hlt := n.toNat_lt
      rw [← fromBe_beBytes (show n.toNat < 256 ^ 8 by omega), hhead, fromBe_length hlength]
    refine ⟨n, src, rfl, hn, ?_, hdata⟩
    rw [← hn]
    rfl

theorem lengthDelimited_lawful : lengthDelimited.Lawful where
  pending_new := rfl
  encode _ _ _ := rfl
  complete := by
    intro state src payload rest hlength h
    have hheld : 8 ≤ (lengthDelimited.held (state, src)).length := by
      rw [LengthDelimitedCodec.held, h, List.length_append, length_frame]
      omega
    obtain ⟨n, src', hhead, hn, _, hdata⟩ := decodeHead_frame payload [] rest hlength hheld (by rw [List.append_nil]; exact h)
    rw [List.append_nil] at hdata
    refine ⟨.head, ?_, rfl⟩
    have hnot : ¬src'.length < n.toNat := by
      rw [hdata, List.length_append]
      omega
    simp only [lengthDelimited, hhead, if_neg hnot]
    rw [hdata, hn, List.take_left, List.drop_left]
  incomplete := by
    intro state src payload rest hlength h hrest
    by_cases hheld : 8 ≤ (lengthDelimited.held (state, src)).length
    · obtain ⟨n, src', hhead, hn, hsplit, hdata⟩ := decodeHead_frame payload rest [] hlength hheld
        (by rw [List.append_nil]; exact h)
      rw [List.append_nil] at hdata
      have hlt : src'.length < n.toNat := by
        have hpos := List.length_pos_iff.mpr hrest
        rw [hn, ← hdata, List.length_append]
        omega
      refine ⟨.data n, src', ?_, ?_⟩
      · simp only [lengthDelimited, hhead, if_pos hlt]
      · exact (congrArg (beBytes 8 · ++ src') hn).trans hsplit.symm
    · cases state with
      | head =>
        change ¬8 ≤ src.length at hheld
        refine ⟨.head, src, ?_, rfl⟩
        simp only [lengthDelimited, decodeHead, if_pos (Nat.lt_of_not_le hheld)]
      | data n =>
        rw [LengthDelimitedCodec.held, List.length_append] at hheld
        change ¬8 ≤ (lengthDelimited.pending (.data n)).length + src.length at hheld
        have hlen : (lengthDelimited.pending (.data n)).length = 8 := length_beBytes 8 n.toNat
        omega

/-- A code for one item. -/
def Bincode.only {T : Type} [DecidableEq T] (item : T) (bytes : Bytes) : Bincode T where
  encodeToVec i := if i = item then .ok bytes else .error "not encoded"
  decodeFromSlice b := if b = bytes then .ok (item, b.length) else .error "not decoded"
  decodeFromStdRead b := if b = bytes then .ok item else .error "not decoded"

theorem Bincode.only_lawful {T : Type} [DecidableEq T] (item : T) (bytes : Bytes) :
    (Bincode.only item bytes).Lawful := by
  have honly : ∀ i b, (Bincode.only item bytes).encodeToVec i = .ok b → i = item ∧ b = bytes := by
    intro i b h
    by_cases hi : i = item
    · simp only [Bincode.only, if_pos hi, Except.ok.injEq] at h
      exact ⟨hi, h.symm⟩
    · simp [Bincode.only, hi] at h
  constructor
  · intro i b h
    obtain ⟨rfl, rfl⟩ := honly i b h
    exact ⟨b.length, if_pos rfl⟩
  · intro i b h
    obtain ⟨rfl, rfl⟩ := honly i b h
    exact if_pos rfl

/-- A job with its encoding: the sixteen bytes of the id behind their number, no job data, the task
3 and one byte of task data. -/
def oneJob : ExecutorJob := { jobId := 0, jobData := [], taskId := 3, taskData := [9] }

def oneJobBytes : Bytes := 16 :: List.replicate 16 0 ++ [0, 3, 1, 9]

/-- Its result after no time, the variant 0 with one byte. -/
def oneResult : ExecutorResult := { jobId := 0, taskId := 3, executionTime := 0, result := .ok [7] }

def oneResultBytes : Bytes := 16 :: List.replicate 16 0 ++ [3, 0, 0, 0, 1, 7]

theorem executor_channel_one :
    (∃ chunks', Yields (Executor.nextJob (.only oneJob oneJobBytes))
      [(frame oneJobBytes).take 5, (frame oneJobBytes).drop 5] [oneJob] chunks' ∧
        chunks'.flatten = []) ∧
    ∃ done rest u, [oneResult] = done ++ rest ∧
      BinCodec.Receives lengthDelimited (.only oneResult oneResultBytes)
        (lengthDelimited.new, []) [(frame oneResultBytes).take 9] done u ∧
      Executor.sendResults (.only oneResult oneResultBytes) rest =
        .ok (lengthDelimited.held u ++ (frame oneResultBytes).drop 9) ∧
      (∀ result ∈ rest.head?, ∀ payload,
        (Bincode.only oneResult oneResultBytes).encodeToVec result = .ok payload →
          (lengthDelimited.held u).length < 8 + payload.length) ∧
      ((frame oneResultBytes).drop 9 = [] → rest = []) := by
  have channel := executor_channel lengthDelimited_lawful
    (Bincode.only_lawful oneJob oneJobBytes) (Bincode.only_lawful oneResult oneResultBytes)
  refine ⟨channel.1 [oneJob] (frame oneJobBytes) _ ?_ rfl (by simp),
    channel.2 [oneResult] (frame oneResultBytes) _ _ ?_ rfl (by simp)⟩
  · simp [Short, Bincode.only, oneJobBytes]
  · simp [Short, Bincode.only, oneResultBytes]

end Instance

end GridServer.NodeWorker
