import RaipalSoem.SdoUpload

/-!
# When a read returns

The copies of `ecx_SDOread` are not checked against the storage of the caller once segments
arrive, and not against the mailbox buffer at all. As long as the replies have the sizes of
SDO replies and the upload fits into the storage, they stay inside both, and the read
returns when the upload is over.
-/

namespace RaipalSoem

open Lib

/-- A reply counts at least the ten bytes of an SDO message and lies inside the buffer. -/
structure SdoSized (mbx : Mailbox) : Prop where
  header : 10 ≤ replyLength mbx
  inside : 6 + replyLength mbx ≤ ecMaxMbx + 1

/-- The size in a normal response is an `int`. -/
def IntSized (index : UInt16) (mbx : Mailbox) : Prop :=
  ∀ size data, responseTo mbx index = .initiate size data → size < 2 ^ 31

theorem segmentBytes_le (mbx : Mailbox) : segmentBytes mbx ≤ replyLength mbx - 3 := by
  unfold segmentBytes
  split_ifs with hlast
  · rw [hlast.2]
    exact Nat.sub_le _ _
  · exact le_refl _

section Returns

variable {e : Endian} {index : UInt16} {subIndex : UInt8} {old got : List UInt8}
  {st : SdoState} {hp : Nat} {t : Transfer UInt8}

theorem copyMailbox_returns {p : List UInt8} {src size : Nat} (mbx : Mailbox)
    (hsrc : src + size ≤ ecMaxMbx + 1) (hle : size ≤ p.length) :
    ∃ p', copyMailbox p 0 mbx src size = some p' := by
  have hfits : ([] ++ mbx.read src size).length ≤ p.length := by
    rwa [List.nil_append, Memory.read_length]
  rw [copyMailbox, if_pos hsrc]
  exact ⟨_, copyTo_overlay_of_le hfits⟩

theorem Filled.append_returns {mbx : Mailbox} {size : Nat} (h : Filled old got st hp)
    (hsrc : 9 + size ≤ ecMaxMbx + 1) (hle : (got ++ mbx.read 9 size).length ≤ old.length)
    (hlt : (got ++ mbx.read 9 size).length < 2 ^ 31) :
    ∃ st', st.append hp mbx size = some st' := by
  have hint : st.psize + size < 2 ^ 31 := by
    rw [List.length_append, Memory.read_length] at hlt
    rw [h.psize]
    exact_mod_cast hlt
  rw [SdoState.append, copyMailbox, if_pos hsrc, h.p, h.hp, copyTo_overlay_of_le hle,
    Option.bind_some, addSize, if_pos hint]
  exact ⟨_, rfl⟩

/-- The loop over the segments returns when the transfer is over. -/
theorem segmentedTransfer_returns {toggle : UInt8} {xs : List MbxExchange}
    (h : Filled old got st hp) (hcollect : collect got (xs.map MbxExchange.piece) = some t)
    (hle : t.values.length ≤ old.length) (hlt : t.values.length < 2 ^ 31)
    (hsized : ∀ x ∈ xs, x.Answered → SdoSized x.mbxIn) :
    ∃ st', segmentedTransfer e index subIndex st hp toggle xs = some st' := by
  induction xs generalizing st got hp toggle with
  | nil => cases hcollect
  | cons x rest ih =>
      rw [List.map_cons] at hcollect
      have hrest : ∀ x ∈ rest, x.Answered → SdoSized x.mbxIn :=
        fun x hx => hsized x (List.mem_cons_of_mem _ hx)
      by_cases hanswered : x.Answered
      · have hpiece : x.piece = decodeSegment x.mbxIn := if_pos hanswered
        have hx := hsized x List.mem_cons_self hanswered
        have hsize : segmentSize e x.mbxIn = segmentBytes x.mbxIn :=
          segmentSize_of_le e _ (le_trans (by decide) hx.header)
        have hsrc : 9 + segmentBytes x.mbxIn ≤ ecMaxMbx + 1 := by
          have hbytes := segmentBytes_le x.mbxIn
          have hheader := hx.header
          have hinside := hx.inside
          omega
        obtain ⟨st₁, hfilled, _, hround⟩ :=
          segmentedTransfer_answered e index subIndex toggle rest h hanswered
        rw [hround, hsize]
        split_ifs with hresponse hlast
        · rw [hpiece, decodeSegment_last e hresponse hlast] at hcollect
          obtain rfl := Option.some.inj hcollect
          exact hfilled.append_returns hsrc hle hlt
        · rw [hpiece, decodeSegment_more e hresponse hlast, collect] at hcollect
          have harrived := (prefix_of_collect hcollect).length_le
          obtain ⟨st₂, happend⟩ :=
            hfilled.append_returns hsrc (harrived.trans hle) (harrived.trans_lt hlt)
          rw [happend, Option.bind_some]
          exact ih (hfilled.append happend).2.1 hcollect hrest
        · exact ⟨_, rfl⟩
      · have hpiece : x.piece = .lost := if_neg hanswered
        obtain ⟨st₁, hfilled, hround⟩ :=
          segmentedTransfer_lost e index subIndex toggle rest h hanswered
        rw [hpiece] at hcollect
        rw [hround]
        exact ih hfilled hcollect hrest

theorem expeditedResponse_returns {mbx : Mailbox} {ps : List (Piece UInt8)}
    (htransfer : (UploadReply.expedited (mbx.read 12 (expeditedBytes mbx))).transfer st.psize ps =
      some t) (hle : t.values.length ≤ st.p.length) :
    ∃ st', expeditedResponse index subIndex st mbx = some st' := by
  obtain rfl := Option.some.inj htransfer
  have hsize : 4 - ((mbxCommand mbx >>> 2) &&& 0x03).toNat = expeditedBytes mbx := rfl
  unfold expeditedResponse
  simp only [hsize]
  rw [Memory.read_length] at hle
  split_ifs at hle ⊢ with hroom
  · have hsrc : 12 + expeditedBytes mbx ≤ ecMaxMbx + 1 := by
      unfold expeditedBytes ecMaxMbx
      omega
    rw [Memory.read_length] at hle
    obtain ⟨p, hcopy⟩ := copyMailbox_returns mbx hsrc hle
    rw [hcopy]
    exact ⟨_, rfl⟩
  · exact ⟨_, rfl⟩

theorem normalResponse_returns {mbx : Mailbox} {rest : List MbxExchange}
    (htransfer : (UploadReply.initiate (objectSize mbx)
      (mbx.read 16 (replyLength mbx - 10))).transfer st.psize (rest.map MbxExchange.piece) = some t)
    (hle : t.values.length ≤ st.p.length) (hlt : t.values.length < 2 ^ 31)
    (hsized : SdoSized mbx) (hint : objectSize mbx < 2 ^ 31)
    (hrest : ∀ x ∈ rest, x.Answered → SdoSized x.mbxIn) :
    ∃ st', normalResponse e index subIndex st mbx rest = some st' := by
  have hheader := hsized.header
  have hinside := hsized.inside
  rw [normalResponse_eq e index subIndex st rest hint, toNat_dataLength e mbx hheader]
  rw [UploadReply.transfer, Memory.read_length] at htransfer
  split_ifs at htransfer ⊢ with hroom hmore
  · have harrived := (prefix_of_collect htransfer).length_le
    rw [Memory.read_length] at harrived
    have hsrc : 16 + (replyLength mbx - 10) ≤ ecMaxMbx + 1 := by omega
    obtain ⟨p, hcopy⟩ := copyMailbox_returns mbx hsrc (harrived.trans hle)
    rw [hcopy, Option.bind_some]
    exact segmentedTransfer_returns (Filled.start rfl (by omega) hcopy) htransfer hle hlt hrest
  · obtain rfl := Option.some.inj htransfer
    rw [Memory.take_read (not_lt.mp hmore), Memory.read_length] at hle
    have hsrc : 16 + objectSize mbx ≤ ecMaxMbx + 1 := by omega
    obtain ⟨p, hcopy⟩ := copyMailbox_returns mbx hsrc hle
    rw [hcopy]
    exact ⟨_, rfl⟩
  · exact ⟨_, rfl⟩

theorem firstResponse_returns {mbx : Mailbox} {rest : List MbxExchange}
    (htransfer : (responseTo mbx index).transfer st.psize (rest.map MbxExchange.piece) = some t)
    (hle : t.values.length ≤ st.p.length) (hlt : t.values.length < 2 ^ 31)
    (hsized : SdoSized mbx) (hint : IntSized index mbx)
    (hrest : ∀ x ∈ rest, x.Answered → SdoSized x.mbxIn) :
    ∃ st', firstResponse e index subIndex st mbx rest = some st' := by
  unfold firstResponse
  split_ifs with hresponse hexpedited
  · rw [responseTo_of_response e hresponse, if_pos hexpedited] at htransfer
    exact expeditedResponse_returns htransfer hle
  · have hreply := responseTo_of_response e hresponse
    rw [if_neg hexpedited] at hreply
    rw [hreply] at htransfer
    exact normalResponse_returns htransfer hle hlt hsized (hint _ _ hreply) hrest
  · exact ⟨_, rfl⟩

/-- `ecx_SDOread` returns when the upload is over. -/
theorem ecxSdoRead_returns (e : Endian) (subIndex cnt : UInt8) (ca : Bool) {psize : Int}
    {xs : List MbxExchange} (haccepted : accepted index psize xs = some t)
    (hle : t.values.length ≤ old.length) (hlt : t.values.length < 2 ^ 31)
    (hsized : ∀ x ∈ xs, x.Answered → SdoSized x.mbxIn)
    (hint : ∀ x ∈ xs.head?, x.Answered → IntSized index x.mbxIn) :
    ∃ st, ecxSdoRead e index subIndex cnt ca psize old xs = some st := by
  cases xs with
  | nil => cases haccepted
  | cons x rest =>
      obtain ⟨subIndex₁, st₁, rfl, rfl, _, hfirst⟩ :=
        ecxSdoRead_cons e index subIndex cnt ca psize old x rest
      rw [hfirst]
      rw [accepted] at haccepted
      split_ifs at haccepted ⊢ with hanswered
      · exact firstResponse_returns haccepted hle hlt (hsized x List.mem_cons_self hanswered)
          (hint x rfl hanswered) fun y hy => hsized y (List.mem_cons_of_mem _ hy)
      · exact ⟨_, rfl⟩

end Returns

/-- A typed read returns when the upload is over, if the variable holds what it delivers. -/
theorem sdoReadT_returns (e : Endian) {index : UInt16} (subIndex cnt : UInt8) {out : List UInt8}
    {xs : List MbxExchange} {t : Transfer UInt8}
    (haccepted : accepted index (intOfSize out.length) xs = some t)
    (hle : t.values.length ≤ out.length) (hlt : t.values.length < 2 ^ 31)
    (hsized : ∀ x ∈ xs, x.Answered → SdoSized x.mbxIn)
    (hint : ∀ x ∈ xs.head?, x.Answered → IntSized index x.mbxIn) :
    ∃ ok out', sdoReadT e index subIndex cnt out xs = some (ok, out') := by
  obtain ⟨st, hread⟩ := ecxSdoRead_returns e subIndex cnt false haccepted hle hlt hsized hint
  rw [sdoReadT, sdoRead, hread]
  exact ⟨_, _, rfl⟩

end RaipalSoem
