import RaipalSoem.SdoRead
import RaipalSoem.Lib.Transfer

/-!
# The upload of an object

What a slave sends when an object is read, apart from how the master stores it: replies
with little-endian fields, whose data are as long as the mailbox header says. An upload
delivers the bytes of the object in one reply or in segments, none of which is lost, and
which add up to the size that the first reply announces. `ecx_SDOread` copies what arrives
to the start of the parameter buffer, piece by piece. It does not look at the subindex of
the first reply, goes on behind a segment that is lost, and does not compare the sizes; for
a slave whose replies leave nothing to be seen there it receives the object.
-/

namespace RaipalSoem

open Lib

section Replies

variable (mbx : Mailbox)

/-- The number of bytes behind the mailbox header. -/
def replyLength : Nat := (ofLeBytes 2 (mbx.read 0 2)).toNat

/-- The reply is a CoE message of the service "SDO response". -/
def isCoeResponse : Prop := mbx 5 &&& 0x0f = 3 ∧ ofLeBytes 2 (mbx.read 6 2) >>> 12 = 3#16

instance : Decidable (isCoeResponse mbx) := inferInstanceAs (Decidable (_ ∧ _))

/-- The number of data bytes of a segment; the last one can leave some of seven unused. -/
def segmentBytes : Nat :=
  if mbx 8 &&& 0x01 ≠ 0 ∧ replyLength mbx - 3 = 7 then 7 - ((mbx 8 &&& 0x0e) >>> 1).toNat
  else replyLength mbx - 3

/-- A reply to the request of a segment. -/
def decodeSegment : Piece UInt8 :=
  if isCoeResponse mbx ∧ mbx 8 &&& 0xe0 = 0 then
    if mbx 8 &&& 0x01 ≠ 0 then .last (mbx.read 9 (segmentBytes mbx))
    else .more (mbx.read 9 (segmentBytes mbx))
  else .broken

/-- A reply to the request of an object: the object itself in an expedited response, its
size with all data or the first of them, or anything else. -/
inductive UploadReply
  | expedited (data : List UInt8)
  | initiate (size : Nat) (data : List UInt8)
  | other
  deriving DecidableEq, Repr

/-- The number of bytes of an object in an expedited response. -/
def expeditedBytes : Nat := 4 - ((mbx 8 >>> 2) &&& 0x03).toNat

/-- The size that a normal response gives for the object. -/
def objectSize : Nat := (ofLeBytes 4 (mbx.read 12 4)).toNat

/-- A response with the index `index`, for any of its subindices. -/
def responseTo (index : UInt16) : UploadReply :=
  if isCoeResponse mbx ∧ ofLeBytes 2 (mbx.read 9 2) = index.toBitVec then
    if mbx 8 &&& 0x02 ≠ 0 then .expedited (mbx.read 12 (expeditedBytes mbx))
    else .initiate (objectSize mbx) (mbx.read 16 (replyLength mbx - 10))
  else .other

/-- A reply to the request of the object `index`, `subIndex`. -/
def decodeReply (index : UInt16) (subIndex : UInt8) : UploadReply :=
  if mbx 11 = subIndex then responseTo mbx index else .other

end Replies

/-- A request has been answered. -/
def MbxExchange.Answered (x : MbxExchange) : Prop := 0 < x.sendWkc ∧ 0 < x.receiveWkc

instance (x : MbxExchange) : Decidable x.Answered := inferInstanceAs (Decidable (_ ∧ _))

/-- What comes of the request of a segment. -/
def MbxExchange.piece (x : MbxExchange) : Piece UInt8 :=
  if x.Answered then decodeSegment x.mbxIn else .lost

/-- What arrives after a first reply, and whether the last of it does. The object has room for
`room` bytes, and `ps` are the segments that may follow. -/
def UploadReply.transfer (room : Int) (ps : List (Piece UInt8)) :
    UploadReply → Option (Transfer UInt8)
  | .expedited data => some (if data.length ≤ room then ⟨data, true⟩ else ⟨[], false⟩)
  | .initiate size data =>
      if size ≤ room then
        if data.length < size then collect data ps else some ⟨data.take size, true⟩
      else some ⟨[], false⟩
  | .other => some ⟨[], false⟩

/-- What arrives, and whether it is the object, all of it: a transfer in segments loses none
of them, and they have the size that was announced. -/
def UploadReply.object (room : Int) (ps : List (Piece UInt8)) :
    UploadReply → Option (Transfer UInt8)
  | .initiate size data =>
      if size ≤ room ∧ data.length < size then
        (collect data ps).map fun t =>
          ⟨t.values, t.complete && intact ps && t.values.length == size⟩
      else UploadReply.transfer room ps (.initiate size data)
  | reply => reply.transfer room ps

/-- The upload of the object `index`, `subIndex` of at most `room` bytes. -/
def upload (index : UInt16) (subIndex : UInt8) (room : Int) :
    List MbxExchange → Option (Transfer UInt8)
  | [] => none
  | x :: rest =>
      if x.Answered then
        (decodeReply x.mbxIn index subIndex).object room (rest.map MbxExchange.piece)
      else some ⟨[], false⟩

/-- What a master accepts that looks at the index alone, and at the end of the segments. -/
def accepted (index : UInt16) (room : Int) : List MbxExchange → Option (Transfer UInt8)
  | [] => none
  | x :: rest =>
      if x.Answered then (responseTo x.mbxIn index).transfer room (rest.map MbxExchange.piece)
      else some ⟨[], false⟩

/-- A normal response is at least as long as its SDO header. -/
def CountsHeader (index : UInt16) (mbx : Mailbox) : Prop :=
  ∀ size data, responseTo mbx index = .initiate size data → 10 ≤ replyLength mbx

/-- The first reply of an upload counts its header. -/
def HeaderCounted (index : UInt16) (xs : List MbxExchange) : Prop :=
  ∀ x ∈ xs.head?, x.Answered → CountsHeader index x.mbxIn

/-- Replies in which a master that looks at the index alone misses nothing: a response with
the index has the subindex too and counts its header, and segments that come to an end have
lost none and add up to the announced size. -/
structure Regular (index : UInt16) (subIndex : UInt8) (xs : List MbxExchange) : Prop where
  header : HeaderCounted index xs
  subIndex : ∀ x ∈ xs.head?, responseTo x.mbxIn index ≠ .other → x.mbxIn 11 = subIndex
  segments : ∀ x ∈ xs.head?, ∀ size data, responseTo x.mbxIn index = .initiate size data →
    data.length < size → ∀ t, collect data (xs.tail.map MbxExchange.piece) = some t →
      t.complete = true → intact (xs.tail.map MbxExchange.piece) = true ∧ t.values.length = size

/-- In regular replies what is accepted is the object. -/
theorem Regular.upload_eq {index : UInt16} {subIndex : UInt8} {xs : List MbxExchange}
    (h : Regular index subIndex xs) (room : Int) :
    upload index subIndex room xs = accepted index room xs := by
  cases xs with
  | nil => rfl
  | cons x rest =>
      rw [upload, accepted]
      split_ifs with hanswered
      · have hreply : decodeReply x.mbxIn index subIndex = responseTo x.mbxIn index := by
          rw [decodeReply, ite_eq_left_iff]
          intro hother
          by_contra hne
          exact hother (h.subIndex x rfl (Ne.symm hne))
        rw [hreply]
        cases hresponse : responseTo x.mbxIn index with
        | expedited data => rfl
        | other => rfl
        | initiate size data =>
            unfold UploadReply.object
            dsimp only
            split_ifs with hsegments
            · rw [UploadReply.transfer, if_pos hsegments.1, if_pos hsegments.2]
              cases hcollect : collect data (rest.map MbxExchange.piece) with
              | none => rfl
              | some t =>
                  have hwhole := h.segments x rfl size data hresponse hsegments.2 t hcollect
                  obtain ⟨values, complete⟩ := t
                  cases complete with
                  | false => simp
                  | true =>
                      obtain ⟨hintact, hsize⟩ := hwhole rfl
                      simp only [List.tail_cons] at hintact
                      simp [hintact, hsize]
            · rfl
      · rfl

section Fields

variable (e : Endian) (mbx : Mailbox)

theorem toNat_mbxLength : (mbxLength e mbx).toNat = replyLength mbx := by
  rw [mbxLength, htoes_ofHostBytes e (Memory.read_length _ _ _)]
  rfl

theorem isSdoResponse_iff : isSdoResponse e mbx ↔ isCoeResponse mbx := by
  unfold isSdoResponse isCoeResponse mbxCanOpen
  rw [htoes_ofHostBytes e (Memory.read_length _ _ _)]
  refine and_congr Iff.rfl ?_
  rw [← UInt16.toBitVec_inj]
  rfl

theorem mbxIndex_eq_iff (index : UInt16) :
    mbxIndex e mbx = htoes e index.toBitVec ↔ ofLeBytes 2 (mbx.read 9 2) = index.toBitVec :=
  ofHostBytes_eq_iff (n := 2) (hostBytes_htoes e) (Memory.read_length _ _ _) index.toBitVec

theorem toInt_mbxLdata : (mbxLdata e mbx).toInt =
    if objectSize mbx < 2 ^ 31 then (objectSize mbx : Int) else objectSize mbx - 2 ^ 32 := by
  have hbits : (mbxLdata e mbx).toInt = (ofLeBytes 4 (mbx.read 12 4)).toInt := by
    rw [mbxLdata, htoel_ofHostBytes e (Memory.read_length _ _ _)]
    rfl
  rw [hbits, BitVec.toInt_eq_toNat_cond, objectSize]
  split_ifs <;> omega

/-- A length that is too small for the headers wraps around. -/
theorem toNat_mbxLength_sub (n : UInt16) :
    (mbxLength e mbx - n).toNat = (2 ^ 16 - n.toNat + replyLength mbx) % 2 ^ 16 := by
  rw [UInt16.toNat_sub, toNat_mbxLength]

theorem toNat_dataLength (h : 10 ≤ replyLength mbx) :
    (mbxLength e mbx - 10).toNat = replyLength mbx - 10 := by
  have hlt : replyLength mbx < 2 ^ 16 := (ofLeBytes 2 (mbx.read 0 2)).isLt
  rw [toNat_mbxLength_sub, show (10 : UInt16).toNat = 10 from rfl]
  omega

theorem segmentSize_of_le (h : 3 ≤ replyLength mbx) : segmentSize e mbx = segmentBytes mbx := by
  have hlt : replyLength mbx < 2 ^ 16 := (ofLeBytes 2 (mbx.read 0 2)).isLt
  have hsub : (mbxLength e mbx - 3).toNat = replyLength mbx - 3 := by
    rw [toNat_mbxLength_sub, show (3 : UInt16).toNat = 3 from rfl]
    omega
  unfold segmentSize segmentBytes
  simp only [hsub, mbxCommand]
  split_ifs with hlast
  · rw [hlast.2]
  · rfl

/-- A segment whose data stay inside the mailbox buffer has as many as its header says. -/
theorem segmentSize_eq (h : 9 + segmentSize e mbx ≤ ecMaxMbx + 1) :
    segmentSize e mbx = segmentBytes mbx := by
  apply segmentSize_of_le
  by_contra hshort
  have hsub : (mbxLength e mbx - 3).toNat = 2 ^ 16 - 3 + replyLength mbx := by
    rw [toNat_mbxLength_sub, show (3 : UInt16).toNat = 3 from rfl]
    omega
  unfold segmentSize ecMaxMbx at h
  simp only [hsub] at h
  rw [if_neg (by omega)] at h
  omega

variable {mbx}

theorem decodeSegment_last (h : isSdoResponse e mbx ∧ mbxCommand mbx &&& 0xe0 = 0)
    (hlast : mbxCommand mbx &&& 0x01 ≠ 0) :
    decodeSegment mbx = .last (mbx.read 9 (segmentBytes mbx)) := by
  rw [isSdoResponse_iff] at h
  exact (if_pos h).trans (if_pos hlast)

theorem decodeSegment_more (h : isSdoResponse e mbx ∧ mbxCommand mbx &&& 0xe0 = 0)
    (hlast : ¬ mbxCommand mbx &&& 0x01 ≠ 0) :
    decodeSegment mbx = .more (mbx.read 9 (segmentBytes mbx)) := by
  rw [isSdoResponse_iff] at h
  exact (if_pos h).trans (if_neg hlast)

theorem decodeSegment_broken (h : ¬(isSdoResponse e mbx ∧ mbxCommand mbx &&& 0xe0 = 0)) :
    decodeSegment mbx = .broken := by
  rw [isSdoResponse_iff] at h
  exact if_neg h

theorem responseTo_of_response {index : UInt16}
    (h : isSdoResponse e mbx ∧ mbxIndex e mbx = htoes e index.toBitVec) :
    responseTo mbx index =
      if mbxCommand mbx &&& 0x02 ≠ 0 then .expedited (mbx.read 12 (expeditedBytes mbx))
      else .initiate (objectSize mbx) (mbx.read 16 (replyLength mbx - 10)) := by
  rw [isSdoResponse_iff, mbxIndex_eq_iff] at h
  exact if_pos h

theorem responseTo_other {index : UInt16}
    (h : ¬(isSdoResponse e mbx ∧ mbxIndex e mbx = htoes e index.toBitVec)) :
    responseTo mbx index = .other := by
  rw [isSdoResponse_iff, mbxIndex_eq_iff] at h
  exact if_neg h

end Fields

/-- The parameter buffer holds what has been delivered so far, and `*psize` and `hp` count
it. -/
structure Filled (old got : List UInt8) (st : SdoState) (hp : Nat) : Prop where
  p : st.p = overlay old got
  psize : st.psize = got.length
  hp : hp = got.length
  le : got.length ≤ old.length
  lt : got.length < 2 ^ 31

/-- The state that a transfer leaves behind: the parameter buffer holds what has been
delivered, and the work counter tells whether that is all. -/
structure Delivered (old : List UInt8) (t : Transfer UInt8) (st : SdoState) : Prop where
  p : st.p = overlay old t.values
  le : t.values.length ≤ old.length
  lt : t.values.length < 2 ^ 31
  ok : 0 < st.wkc ↔ t.complete = true
  psize : t.complete = true → st.psize = t.values.length

section Run

variable {e : Endian} {index : UInt16} {subIndex : UInt8} {old got : List UInt8}
  {st st' : SdoState} {hp : Nat}

theorem copyMailbox_eq_some {p p' : List UInt8} {off src size : Nat} {mbx : Mailbox}
    (h : copyMailbox p off mbx src size = some p') :
    src + size ≤ ecMaxMbx + 1 ∧ copyTo p off (mbx.read src size) = some p' := by
  unfold copyMailbox at h
  split_ifs at h with hsrc
  exact ⟨hsrc, h⟩

/-- A transfer that ends with its last piece is complete. -/
theorem Filled.delivered (h : Filled old got st hp) (hwkc : 0 < st.wkc) :
    Delivered old ⟨got, true⟩ st :=
  ⟨h.p, h.le, h.lt, iff_of_true hwkc rfl, fun _ => h.psize⟩

/-- A transfer that breaks off leaves what has arrived before. -/
theorem Filled.broken (h : Filled old got st hp) (hp' : st'.p = st.p) (hwkc : ¬ 0 < st'.wkc) :
    Delivered old ⟨got, false⟩ st' :=
  ⟨hp'.trans h.p, h.le, h.lt, iff_of_false hwkc Bool.false_ne_true, nofun⟩

/-- A segment is copied behind what the buffer holds already. -/
theorem Filled.append {mbx : Mailbox} {size : Nat} (h : Filled old got st hp)
    (happend : st.append hp mbx size = some st') :
    9 + size ≤ ecMaxMbx + 1 ∧ Filled old (got ++ mbx.read 9 size) st' (hp + size) ∧
      st'.wkc = st.wkc := by
  obtain ⟨p, hcopy, hrest⟩ := Option.bind_eq_some_iff.mp happend
  obtain ⟨psize, hadd, rfl⟩ := Option.map_eq_some_iff.mp hrest
  obtain ⟨hsrc, hcopy⟩ := copyMailbox_eq_some hcopy
  rw [h.p, h.hp] at hcopy
  obtain ⟨hle, hp'⟩ := copyTo_overlay h.le hcopy
  unfold addSize at hadd
  split_ifs at hadd with hlt
  refine ⟨hsrc, ⟨hp', ?_, ?_, hle, ?_⟩, rfl⟩
  · rw [← Option.some.inj hadd, h.psize, List.length_append, Memory.read_length, Nat.cast_add]
  · rw [h.hp, List.length_append, Memory.read_length]
  · rw [h.psize] at hlt
    rw [List.length_append, Memory.read_length]
    exact_mod_cast hlt

/-- A request without an answer is followed by the next one, and nothing is copied. -/
theorem segmentedTransfer_lost (e : Endian) (index : UInt16) (subIndex toggle : UInt8)
    {x : MbxExchange} (rest : List MbxExchange) (h : Filled old got st hp) (hlost : ¬ x.Answered) :
    ∃ st₁, Filled old got st₁ hp ∧ segmentedTransfer e index subIndex st hp toggle (x :: rest) =
      segmentedTransfer e index subIndex st₁ hp (toggle ^^^ 0x10) rest := by
  rw [segmentedTransfer]
  dsimp only
  by_cases hsend : 0 < x.sendWkc
  · have hreceive : ¬ 0 < x.receiveWkc := fun hreceive => hlost ⟨hsend, hreceive⟩
    rw [if_pos hsend, if_neg hreceive]
    refine ⟨_, ?_, rfl⟩
    exact ⟨h.p, h.psize, h.hp, h.le, h.lt⟩
  · rw [if_neg hsend]
    refine ⟨_, ?_, rfl⟩
    exact ⟨h.p, h.psize, h.hp, h.le, h.lt⟩

/-- A request with an answer leaves the buffer as it was until the answer is looked at. -/
theorem segmentedTransfer_answered (e : Endian) (index : UInt16) (subIndex toggle : UInt8)
    {x : MbxExchange} (rest : List MbxExchange) (h : Filled old got st hp)
    (hanswered : x.Answered) :
    ∃ st₁, Filled old got st₁ hp ∧ 0 < st₁.wkc ∧
      segmentedTransfer e index subIndex st hp toggle (x :: rest) =
        if isSdoResponse e x.mbxIn ∧ mbxCommand x.mbxIn &&& 0xe0 = 0 then
          if mbxCommand x.mbxIn &&& 0x01 ≠ 0 then st₁.append hp x.mbxIn (segmentSize e x.mbxIn)
          else
            (st₁.append hp x.mbxIn (segmentSize e x.mbxIn)).bind fun st₂ =>
              segmentedTransfer e index subIndex st₂ (hp + segmentSize e x.mbxIn)
                (toggle ^^^ 0x10) rest
        else some (st₁.unexpected e index subIndex x.mbxIn) := by
  rw [segmentedTransfer]
  dsimp only
  rw [if_pos hanswered.1, if_pos hanswered.2]
  refine ⟨_, ?_, ?_, rfl⟩
  · exact ⟨h.p, h.psize, h.hp, h.le, h.lt⟩
  · exact hanswered.2

/-- What one round of the loop over the segments does with a buffer that holds `got`. -/
theorem segmentedTransfer_cases {toggle : UInt8} {x : MbxExchange} {rest : List MbxExchange}
    (h : Filled old got st hp)
    (hrun : segmentedTransfer e index subIndex st hp toggle (x :: rest) = some st') :
    (x.piece = .lost ∧ ∃ st₁ toggle₁, Filled old got st₁ hp ∧
      segmentedTransfer e index subIndex st₁ hp toggle₁ rest = some st') ∨
    (∃ vs, x.piece = .more vs ∧ ∃ st₁ hp₁ toggle₁, Filled old (got ++ vs) st₁ hp₁ ∧
      segmentedTransfer e index subIndex st₁ hp₁ toggle₁ rest = some st') ∨
    (∃ vs, x.piece = .last vs ∧ Delivered old ⟨got ++ vs, true⟩ st') ∨
    (x.piece = .broken ∧ Delivered old ⟨got, false⟩ st') := by
  by_cases hanswered : x.Answered
  · right
    have hpiece : x.piece = decodeSegment x.mbxIn := if_pos hanswered
    obtain ⟨st₁, hfilled₁, hwkc₁, hround⟩ :=
      segmentedTransfer_answered e index subIndex toggle rest h hanswered
    rw [hround] at hrun
    split_ifs at hrun with hresponse hlast
    · right; left
      obtain ⟨hsrc, hfilled, hwkc⟩ := hfilled₁.append hrun
      rw [segmentSize_eq e _ hsrc] at hfilled
      refine ⟨_, hpiece.trans (decodeSegment_last e hresponse hlast), hfilled.delivered ?_⟩
      rw [hwkc]
      exact hwkc₁
    · left
      obtain ⟨st₂, happend, hrun⟩ := Option.bind_eq_some_iff.mp hrun
      obtain ⟨hsrc, hfilled, _⟩ := hfilled₁.append happend
      rw [segmentSize_eq e _ hsrc] at hfilled hrun
      exact ⟨_, hpiece.trans (decodeSegment_more e hresponse hlast), st₂, _, _, hfilled, hrun⟩
    · right; right
      obtain rfl := Option.some.inj hrun
      exact ⟨hpiece.trans (decodeSegment_broken e hresponse), hfilled₁.broken rfl (lt_irrefl 0)⟩
  · left
    obtain ⟨st₁, hfilled, hround⟩ :=
      segmentedTransfer_lost e index subIndex toggle rest h hanswered
    rw [hround] at hrun
    exact ⟨if_neg hanswered, st₁, _, hfilled, hrun⟩

/-- The loop over the segments copies what the slave delivers in them. -/
theorem segmentedTransfer_collect {toggle : UInt8} {xs : List MbxExchange}
    (h : Filled old got st hp)
    (hrun : segmentedTransfer e index subIndex st hp toggle xs = some st') :
    ∃ t, collect got (xs.map MbxExchange.piece) = some t ∧ Delivered old t st' := by
  induction xs generalizing st got hp toggle with
  | nil => cases hrun
  | cons x rest ih =>
      rw [List.map_cons]
      rcases segmentedTransfer_cases h hrun with ⟨hpiece, st₁, toggle₁, hfilled, hrun₁⟩ |
        ⟨vs, hpiece, st₁, hp₁, toggle₁, hfilled, hrun₁⟩ | ⟨vs, hpiece, hdelivered⟩ |
        ⟨hpiece, hdelivered⟩
      · rw [hpiece]
        exact ih hfilled hrun₁
      · rw [hpiece]
        exact ih hfilled hrun₁
      · rw [hpiece]
        exact ⟨_, rfl, hdelivered⟩
      · rw [hpiece]
        exact ⟨_, rfl, hdelivered⟩

/-- The first copy goes to the start of the buffer. -/
theorem copyMailbox_start {p p' : List UInt8} {src size : Nat} {mbx : Mailbox}
    (h : copyMailbox p 0 mbx src size = some p') :
    size ≤ p.length ∧ p' = overlay p (mbx.read src size) := by
  obtain ⟨_, hcopy⟩ := copyMailbox_eq_some h
  rw [← overlay_nil p] at hcopy
  obtain ⟨hle, hp'⟩ := copyTo_overlay (Nat.zero_le _) hcopy
  rw [List.nil_append, Memory.read_length] at hle
  exact ⟨hle, hp'⟩

/-- Giving up before the first copy leaves the buffer as it was. -/
theorem Delivered.nothing (h : st.p = old) (hwkc : ¬ 0 < st.wkc) :
    Delivered old ⟨[], false⟩ st :=
  ⟨h, Nat.zero_le _, by decide, iff_of_false hwkc Bool.false_ne_true, nofun⟩

/-- The first copy fills the start of the buffer. -/
theorem Filled.start {p : List UInt8} {src size : Nat} {mbx : Mailbox} (hold : st.p = old)
    (hsize : size < 2 ^ 31) (h : copyMailbox st.p 0 mbx src size = some p) :
    Filled old (mbx.read src size) { st with p := p, psize := size } size := by
  obtain ⟨hle, hp⟩ := copyMailbox_start h
  have hlength : (mbx.read src size).length = size := Memory.read_length mbx src size
  refine ⟨hold ▸ hp, ?_, hlength.symm, ?_, ?_⟩
  · rw [hlength]
  · rw [hlength, ← hold]
    exact hle
  · rw [hlength]
    exact hsize

/-- The branch for an expedited response copies the object that is in the reply. -/
theorem expeditedResponse_delivered {mbx : Mailbox} (ps : List (Piece UInt8))
    (hold : st.p = old) (hwkc : 0 < st.wkc)
    (hrun : expeditedResponse index subIndex st mbx = some st') :
    ∃ t, (UploadReply.expedited (mbx.read 12 (expeditedBytes mbx))).transfer st.psize ps = some t ∧
      Delivered old t st' := by
  have hsize : 4 - ((mbxCommand mbx >>> 2) &&& 0x03).toNat = expeditedBytes mbx := rfl
  unfold expeditedResponse at hrun
  simp only [hsize] at hrun
  refine ⟨_, rfl, ?_⟩
  rw [Memory.read_length]
  split_ifs at hrun ⊢ with hroom
  · obtain ⟨p, hcopy, rfl⟩ := Option.map_eq_some_iff.mp hrun
    have hbytes : expeditedBytes mbx < 2 ^ 31 := by
      unfold expeditedBytes
      omega
    exact (Filled.start hold hbytes hcopy).delivered hwkc
  · obtain rfl := Option.some.inj hrun
    exact Delivered.nothing hold (lt_irrefl 0)

/-- The branch for a normal response whose size is an `int` that is not negative. -/
theorem normalResponse_eq (e : Endian) (index : UInt16) (subIndex : UInt8) (st : SdoState)
    {mbx : Mailbox} (rest : List MbxExchange) (hint : objectSize mbx < 2 ^ 31) :
    normalResponse e index subIndex st mbx rest =
      if objectSize mbx ≤ st.psize then
        if (mbxLength e mbx - 10).toNat < objectSize mbx then
          (copyMailbox st.p 0 mbx 16 (mbxLength e mbx - 10).toNat).bind fun p =>
            segmentedTransfer e index subIndex
              { st with p := p, psize := (mbxLength e mbx - 10).toNat }
              (mbxLength e mbx - 10).toNat 0x00 rest
        else
          (copyMailbox st.p 0 mbx 16 (objectSize mbx)).map fun p =>
            { st with p := p, psize := objectSize mbx }
      else some (st.tooSmall index subIndex) := by
  have hsize : (mbxLdata e mbx).toInt = objectSize mbx := by
    rw [toInt_mbxLdata, if_pos hint]
  unfold normalResponse
  simp only [hsize, Nat.cast_lt, sizeOfInt_natCast (hint.trans (by decide))]

/-- A negative size is given up, for the copy of that many bytes does not stay inside the
mailbox buffer. -/
theorem normalResponse_negative {mbx : Mailbox} {rest : List MbxExchange}
    (hneg : 2 ^ 31 ≤ objectSize mbx)
    (hrun : normalResponse e index subIndex st mbx rest = some st') :
    st' = st.tooSmall index subIndex := by
  have hobject : objectSize mbx < 2 ^ 32 := (ofLeBytes 4 (mbx.read 12 4)).isLt
  have hsize : (mbxLdata e mbx).toInt = objectSize mbx - 2 ^ 32 := by
    rw [toInt_mbxLdata, if_neg (not_lt.mpr hneg)]
  unfold normalResponse at hrun
  simp only [hsize] at hrun
  split_ifs at hrun with hroom hmore
  · omega
  · obtain ⟨p, hcopy, _⟩ := Option.map_eq_some_iff.mp hrun
    have hhuge : 2 ^ 63 ≤ sizeOfInt (objectSize mbx - 2 ^ 32) :=
      le_sizeOfInt_of_neg (by omega) (by omega)
    have hinside := (copyMailbox_eq_some hcopy).1
    unfold ecMaxMbx at hinside
    omega
  · exact (Option.some.inj hrun).symm

/-- First data that stay inside the mailbox buffer are as many as the header says. -/
theorem dataLength_eq {mbx : Mailbox}
    (h : 16 + (mbxLength e mbx - 10).toNat ≤ ecMaxMbx + 1) :
    (mbxLength e mbx - 10).toNat = replyLength mbx - 10 := by
  have hlt : replyLength mbx < 2 ^ 16 := (ofLeBytes 2 (mbx.read 0 2)).isLt
  rw [toNat_mbxLength_sub, show (10 : UInt16).toNat = 10 from rfl] at h ⊢
  unfold ecMaxMbx at h
  omega

/-- The branch for a normal response copies the object, or the data that are in the first
reply and then those in the segments. -/
theorem normalResponse_delivered {mbx : Mailbox} {rest : List MbxExchange}
    (hold : st.p = old) (hwkc : 0 < st.wkc) (hpsize : st.psize < 2 ^ 31)
    (hrun : normalResponse e index subIndex st mbx rest = some st') :
    ∃ t, Delivered old t st' ∧ (10 ≤ replyLength mbx ∨ t.complete = false →
      (UploadReply.initiate (objectSize mbx) (mbx.read 16 (replyLength mbx - 10))).transfer
        st.psize (rest.map MbxExchange.piece) = some t) := by
  rw [UploadReply.transfer, Memory.read_length]
  by_cases hint : objectSize mbx < 2 ^ 31
  · rw [normalResponse_eq e index subIndex st rest hint] at hrun
    split_ifs at hrun with hroom hmore
    · obtain ⟨p, hcopy, hrun⟩ := Option.bind_eq_some_iff.mp hrun
      have hdata : (mbxLength e mbx - 10).toNat = replyLength mbx - 10 :=
        dataLength_eq (copyMailbox_eq_some hcopy).1
      rw [hdata] at hcopy hrun hmore
      have hfilled := Filled.start hold (hmore.trans hint) hcopy
      obtain ⟨t, hcollect, hdelivered⟩ := segmentedTransfer_collect hfilled hrun
      rw [if_pos hroom, if_pos hmore]
      exact ⟨t, hdelivered, fun _ => hcollect⟩
    · obtain ⟨p, hcopy, rfl⟩ := Option.map_eq_some_iff.mp hrun
      refine ⟨_, (Filled.start hold hint hcopy).delivered hwkc, fun hcounted => ?_⟩
      have hheader : 10 ≤ replyLength mbx := hcounted.resolve_right Bool.noConfusion
      rw [toNat_dataLength e mbx hheader] at hmore
      rw [if_pos hroom, if_neg hmore, Memory.take_read (not_lt.mp hmore)]
    · obtain rfl := Option.some.inj hrun
      rw [if_neg hroom]
      exact ⟨_, Delivered.nothing hold (lt_irrefl 0), fun _ => rfl⟩
  · obtain rfl := normalResponse_negative (not_lt.mp hint) hrun
    rw [if_neg (show ¬(objectSize mbx : Int) ≤ st.psize by omega)]
    exact ⟨_, Delivered.nothing hold (lt_irrefl 0), fun _ => rfl⟩

/-- A normal response that is too short for its SDO header is taken for the whole object,
for the length of its data wraps around. -/
theorem normalResponse_short {mbx : Mailbox} {rest : List MbxExchange}
    (hshort : replyLength mbx < 10) (hroom : objectSize mbx ≤ st.psize) (hold : st.p = old)
    (hwkc : 0 < st.wkc) (hpsize : st.psize < 2 ^ 31)
    (hrun : normalResponse e index subIndex st mbx rest = some st') :
    Delivered old ⟨mbx.read 16 (objectSize mbx), true⟩ st' := by
  have hint : objectSize mbx < 2 ^ 31 := by omega
  rw [normalResponse_eq e index subIndex st rest hint, if_pos hroom] at hrun
  split_ifs at hrun with hmore
  · obtain ⟨p, hcopy, _⟩ := Option.bind_eq_some_iff.mp hrun
    have hinside := (copyMailbox_eq_some hcopy).1
    rw [toNat_mbxLength_sub, show (10 : UInt16).toNat = 10 from rfl] at hinside
    unfold ecMaxMbx at hinside
    omega
  · obtain ⟨p, hcopy, rfl⟩ := Option.map_eq_some_iff.mp hrun
    exact (Filled.start hold hint hcopy).delivered hwkc

/-- The first reply is stored as what it delivers. -/
theorem firstResponse_delivered {mbx : Mailbox} {rest : List MbxExchange}
    (hold : st.p = old) (hwkc : 0 < st.wkc) (hpsize : st.psize < 2 ^ 31)
    (hrun : firstResponse e index subIndex st mbx rest = some st') :
    ∃ t, Delivered old t st' ∧ (CountsHeader index mbx ∨ t.complete = false →
      (responseTo mbx index).transfer st.psize (rest.map MbxExchange.piece) = some t) := by
  unfold firstResponse at hrun
  split_ifs at hrun with hresponse hexpedited
  · rw [responseTo_of_response e hresponse, if_pos hexpedited]
    obtain ⟨t, htransfer, hdelivered⟩ :=
      expeditedResponse_delivered (rest.map MbxExchange.piece) hold hwkc hrun
    exact ⟨t, hdelivered, fun _ => htransfer⟩
  · have hreply := responseTo_of_response e hresponse
    rw [if_neg hexpedited] at hreply
    obtain ⟨t, hdelivered, htransfer⟩ := normalResponse_delivered hold hwkc hpsize hrun
    rw [hreply]
    exact ⟨t, hdelivered, fun h => htransfer (h.imp_left fun hcounts => hcounts _ _ hreply)⟩
  · rw [responseTo_other e hresponse]
    obtain rfl := Option.some.inj hrun
    exact ⟨_, Delivered.nothing hold (lt_irrefl 0), fun _ => rfl⟩

/-- What `ecx_SDOread` does once the first request has been answered, or has not. -/
theorem ecxSdoRead_cons (e : Endian) (index : UInt16) (subIndex cnt : UInt8) (ca : Bool)
    (psize : Int) (p : List UInt8) (x : MbxExchange) (rest : List MbxExchange) :
    ∃ subIndex₁, ∃ st : SdoState, st.p = p ∧ st.psize = psize ∧ (0 < st.wkc ↔ x.Answered) ∧
      ecxSdoRead e index subIndex cnt ca psize p (x :: rest) =
        if x.Answered then firstResponse e index subIndex₁ st x.mbxIn rest else some st := by
  rw [ecxSdoRead]
  dsimp only
  by_cases hsend : 0 < x.sendWkc
  · by_cases hreceive : 0 < x.receiveWkc
    · have hanswered : x.Answered := ⟨hsend, hreceive⟩
      rw [if_pos hsend, if_pos hreceive]
      exact ⟨_, _, rfl, rfl, iff_of_true hreceive hanswered, (if_pos hanswered).symm⟩
    · have hlost : ¬ x.Answered := fun hanswered => hreceive hanswered.2
      rw [if_pos hsend, if_neg hreceive]
      exact ⟨subIndex, _, rfl, rfl, iff_of_false hreceive hlost, (if_neg hlost).symm⟩
  · have hlost : ¬ x.Answered := fun hanswered => hsend hanswered.1
    rw [if_neg hsend]
    exact ⟨subIndex, _, rfl, rfl, iff_of_false hsend hlost, (if_neg hlost).symm⟩

/-- `ecx_SDOread` copies what the slave delivers to the start of the parameter buffer. -/
theorem ecxSdoRead_delivered {cnt : UInt8} {ca : Bool} {psize : Int} {xs : List MbxExchange}
    (hpsize : psize < 2 ^ 31)
    (hrun : ecxSdoRead e index subIndex cnt ca psize old xs = some st) :
    ∃ t, Delivered old t st ∧
      (HeaderCounted index xs ∨ t.complete = false → accepted index psize xs = some t) := by
  cases xs with
  | nil => cases hrun
  | cons x rest =>
      obtain ⟨subIndex₁, st₁, hp, rfl, hwkc, hfirst⟩ :=
        ecxSdoRead_cons e index subIndex cnt ca psize old x rest
      rw [hfirst] at hrun
      rw [accepted]
      split_ifs at hrun ⊢ with hanswered
      · obtain ⟨t, hdelivered, htransfer⟩ :=
          firstResponse_delivered hp (hwkc.mpr hanswered) hpsize hrun
        refine ⟨t, hdelivered, fun h => htransfer (h.imp_left fun hcounted => ?_)⟩
        exact hcounted x rfl hanswered
      · obtain rfl := Option.some.inj hrun
        exact ⟨_, Delivered.nothing hp (mt hwkc.mp hanswered), fun _ => rfl⟩

end Run

end RaipalSoem
