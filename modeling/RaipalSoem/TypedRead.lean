import RaipalSoem.SdoUpload

/-!
# Typed reads

`sdoReadT` hands the storage of a variable to `ecx_SDOread` and compares the length
afterwards. If the replies are regular, it returns true for a complete object of the size
of the variable and no other, but there is no second buffer: what has been delivered before
the read fails lies in the variable.
-/

namespace RaipalSoem

open Lib

/-- The first reply announces an object that fits and carries only the first of its data. -/
def StartsSegments (index : UInt16) (room : Int) (xs : List MbxExchange)
    (data : List UInt8) : Prop :=
  ∃ x ∈ xs.head?, x.Answered ∧ ∃ size, responseTo x.mbxIn index = .initiate size data ∧
    size ≤ room ∧ data.length < size

/-- A transfer that breaks off has delivered something only if it is segmented. -/
theorem accepted_broken {index : UInt16} {room : Int} {xs : List MbxExchange}
    {t : Transfer UInt8} (h : accepted index room xs = some t) (hbroken : t.complete = false) :
    t.values = [] ∨ ∃ data, StartsSegments index room xs data ∧ data <+: t.values := by
  cases xs with
  | nil => cases h
  | cons x rest =>
      rw [accepted] at h
      split_ifs at h with hanswered
      · cases hreply : responseTo x.mbxIn index with
        | expedited data =>
            rw [hreply] at h
            obtain rfl := Option.some.inj h
            split_ifs at hbroken ⊢
            exact .inl rfl
        | initiate size data =>
            rw [hreply, UploadReply.transfer] at h
            split_ifs at h with hroom hmore
            · right
              exact ⟨data, ⟨x, rfl, hanswered, size, hreply, hroom, hmore⟩, prefix_of_collect h⟩
            · obtain rfl := Option.some.inj h
              cases hbroken
            · obtain rfl := Option.some.inj h
              exact .inl rfl
        | other =>
            rw [hreply] at h
            obtain rfl := Option.some.inj h
            exact .inl rfl
      · obtain rfl := Option.some.inj h
        exact .inl rfl

section Reads

variable {e : Endian} {index : UInt16} {subIndex cnt : UInt8} {xs : List MbxExchange}

/-- `sdoRead` returns true for a complete transfer, and `len` is the size of its object. -/
theorem sdoRead_delivered {buf : List UInt8} {len : Nat} {r : SdoResult}
    (hrun : sdoRead e index subIndex cnt buf len xs = some r) :
    ∃ t, (HeaderCounted index xs ∨ t.complete = false →
        accepted index (intOfSize len) xs = some t) ∧
      t.values.length ≤ buf.length ∧ r.buf = overlay buf t.values ∧ r.ok = t.complete ∧
      r.len = if t.complete then t.values.length else len := by
  obtain ⟨st, hread, rfl⟩ := Option.map_eq_some_iff.mp hrun
  obtain ⟨t, hdelivered, haccepted⟩ := ecxSdoRead_delivered (intOfSize_lt len) hread
  refine ⟨t, haccepted, hdelivered.le, hdelivered.p, ?_, ?_⟩
  · rw [Bool.eq_iff_iff, decide_eq_true_iff]
    exact hdelivered.ok
  · by_cases hcomplete : t.complete = true
    · have hlt := hdelivered.lt
      rw [if_pos hcomplete, if_pos (hdelivered.ok.mpr hcomplete), hdelivered.psize hcomplete]
      exact sizeOfInt_natCast (by omega)
    · rw [if_neg hcomplete, if_neg fun hok => hcomplete (hdelivered.ok.mp hok)]

/-- What a typed read makes of the transfer `t` into a variable with the bytes `out`. -/
structure TypedOutcome (out : List UInt8) (t : Transfer UInt8) (ok : Bool)
    (out' : List UInt8) : Prop where
  /-- It returns true exactly for a complete object of the size of the variable. -/
  ok_iff : ok = true ↔ t.complete = true ∧ t.values.length = out.length
  /-- The variable is then the object. -/
  object : ok = true → out' = t.values
  /-- In any case what has been received lies at the start of the variable. -/
  le : t.values.length ≤ out.length
  overlaid : out' = overlay out t.values
  unchanged_iff : out' = out ↔ t.values <+: out

/-- `sdoReadT` returns true exactly for a complete object of the right size. -/
theorem sdoReadT_outcome {out out' : List UInt8} {ok : Bool} (hheader : HeaderCounted index xs)
    (hrun : sdoReadT e index subIndex cnt out xs = some (ok, out')) :
    ∃ t, accepted index (intOfSize out.length) xs = some t ∧ TypedOutcome out t ok out' := by
  obtain ⟨r, hread, hresult⟩ := Option.map_eq_some_iff.mp hrun
  obtain ⟨rfl, rfl⟩ := Prod.mk.inj hresult
  obtain ⟨t, haccepted, hle, hbuf, hok, hlen⟩ := sdoRead_delivered hread
  have hiff : (r.ok && r.len == out.length) = true ↔
      t.complete = true ∧ t.values.length = out.length := by
    rw [Bool.and_eq_true, beq_iff_eq, hok, hlen]
    refine and_congr_right fun hcomplete => ?_
    rw [if_pos hcomplete]
  refine ⟨t, haccepted (.inl hheader), hiff, fun htrue => ?_, hle, hbuf, ?_⟩
  · rw [hbuf, overlay_of_length (hiff.mp htrue).2]
  · rw [hbuf]
    exact overlay_eq_self_iff

end Reads

/-- Of a slave with regular replies, typed reads store exactly the objects that are received
completely and have the size of the variable, and one that returns false has stored no more
than it has received: nothing, unless a complete object was shorter or the slave began to
send segments. Of any slave, `sdoRead` leaves `len` when it returns false, and the buffer too
unless the slave began to send segments. -/
theorem typed_reads (e : Endian) (index : UInt16) (subIndex cnt : UInt8)
    (xs : List MbxExchange) :
    (Regular index subIndex xs → ∀ out ok out',
      sdoReadT e index subIndex cnt out xs = some (ok, out') →
      ∃ t, upload index subIndex (intOfSize out.length) xs = some t ∧
        TypedOutcome out t ok out' ∧
        (ok = false → out' = out ∨ (t.complete = true ∧ t.values.length < out.length) ∨
          ∃ data, StartsSegments index (intOfSize out.length) xs data ∧ data <+: t.values)) ∧
    ∀ buf len r, sdoRead e index subIndex cnt buf len xs = some r → r.ok = false →
      r.len = len ∧ ∃ t, accepted index (intOfSize len) xs = some t ∧
        r.buf = overlay buf t.values ∧ (r.buf = buf ∨
          ∃ data, StartsSegments index (intOfSize len) xs data ∧ data <+: t.values) := by
  constructor
  · intro hregular out ok out' hrun
    obtain ⟨t, haccepted, houtcome⟩ := sdoReadT_outcome hregular.header hrun
    refine ⟨t, (hregular.upload_eq _).trans haccepted, houtcome, fun hfalse => ?_⟩
    by_cases hcomplete : t.complete = true
    · right; left
      have hlength : t.values.length ≠ out.length := by
        intro hlength
        exact absurd (houtcome.ok_iff.mpr ⟨hcomplete, hlength⟩) (by simp [hfalse])
      exact ⟨hcomplete, lt_of_le_of_ne houtcome.le hlength⟩
    · rcases accepted_broken haccepted (Bool.not_eq_true _ ▸ hcomplete) with hnothing | hstarts
      · left
        rw [houtcome.overlaid, hnothing, overlay_nil]
      · exact .inr (.inr hstarts)
  · intro buf len r hrun hfalse
    obtain ⟨t, haccepted, _, hbuf, hok, hlen⟩ := sdoRead_delivered hrun
    have hbroken : t.complete = false := hok.symm.trans hfalse
    rw [hbroken] at hlen
    refine ⟨hlen, t, haccepted (.inr hbroken), hbuf, ?_⟩
    rcases accepted_broken (haccepted (.inr hbroken)) hbroken with hnothing | hstarts
    · left
      rw [hbuf, hnothing, overlay_nil]
    · exact .inr hstarts

/-- An answered request. Behind `bytes` the mailbox is cleared. -/
def answeredWith (bytes : List UInt8) : MbxExchange :=
  { sendWkc := 1, receiveWkc := 1, mbxIn := fun a => bytes.getD a 0 }

/-- A device name of four bytes in a normal response. -/
def nameResponse : MbxExchange :=
  answeredWith [0x0e, 0, 0, 0, 0, 0x13, 0, 0x30, 0x41, 0x08, 0x10, 0, 4, 0, 0, 0,
    0x52, 0x41, 0x49, 0x50]

/-- A name of four bytes is read into a variable of four bytes. -/
theorem typed_reads_name :
    ∃ t, upload 0x1008 0 4 [nameResponse] = some t ∧
      TypedOutcome [0, 0, 0, 0] t true [0x52, 0x41, 0x49, 0x50] := by
  have hregular : Regular 0x1008 0 [nameResponse] := by
    refine ⟨?_, ?_, ?_⟩
    · rintro x ⟨⟩ _ size data _
      decide
    · rintro x ⟨⟩ _
      rfl
    · rintro x ⟨⟩ size data _ _ t hcollect
      cases hcollect
  obtain ⟨t, hupload, houtcome, _⟩ := (typed_reads .little 0x1008 0 0 [nameResponse]).1 hregular
    [0, 0, 0, 0] true [0x52, 0x41, 0x49, 0x50] (by decide)
  exact ⟨t, hupload, houtcome⟩

/-- A typed read that stores the object or nothing. -/
def TypedAllOrNothing (e : Endian) (index : UInt16) (subIndex cnt : UInt8) (out : List UInt8)
    (xs : List MbxExchange) : Prop :=
  ∀ ok out', sdoReadT e index subIndex cnt out xs = some (ok, out') →
    (ok = true → upload index subIndex (intOfSize out.length) xs = some ⟨out', true⟩ ∧
      out'.length = out.length) ∧
    (ok = false → out' = out)

/-- A read that fails without a trace. -/
def ReadAllOrNothing (e : Endian) (index : UInt16) (subIndex cnt : UInt8) (buf : List UInt8)
    (len : Nat) (xs : List MbxExchange) : Prop :=
  ∀ r, sdoRead e index subIndex cnt buf len xs = some r → r.ok = false → r.buf = buf ∧ r.len = len

/-- A status word of two bytes in an expedited response. -/
def statusResponse : MbxExchange :=
  answeredWith [0x0a, 0, 0, 0, 0, 0x13, 0, 0x30, 0x4b, 0x41, 0x60, 0, 0x37, 0x02, 0, 0]

/-- The first data of a device name of eight bytes. -/
def firstOfName : MbxExchange :=
  answeredWith [0x0e, 0, 0, 0, 0, 0x13, 0, 0x30, 0x41, 0x08, 0x10, 0, 8, 0, 0, 0,
    0x52, 0x41, 0x49, 0x50]

/-- The slave aborts the transfer of the name. -/
def abortResponse : MbxExchange :=
  answeredWith [0x0a, 0, 0, 0, 0, 0x23, 0, 0x30, 0x80, 0x08, 0x10, 0, 0, 0, 4, 5]

/-- A status word overwrites the first half of a variable of four bytes for which the read
returns false, and the first data of a name stay after its transfer has been aborted. -/
theorem failed_reads_overwrite :
    ¬ TypedAllOrNothing .little 0x6041 0 0 [1, 2, 3, 4] [statusResponse] ∧
      ¬ ReadAllOrNothing .little 0x1008 0 0 [0, 0, 0, 0, 0, 0, 0, 0] 8
        [firstOfName, abortResponse] := by
  constructor
  · intro h
    have hkept := (h false [0x37, 0x02, 3, 4] (by decide)).2 rfl
    exact absurd hkept (by decide)
  · intro h
    have hkept := (h ⟨false, [0x52, 0x41, 0x49, 0x50, 0, 0, 0, 0], 8⟩ (by decide) rfl).1
    exact absurd hkept (by decide)

end RaipalSoem
