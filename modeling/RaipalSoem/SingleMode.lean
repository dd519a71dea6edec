import RaipalSoem.Redundancy
import RaipalSoem.Wire

/-!
# A frame exchange by one network card

With one card, sending a frame and waiting for its answer comes down to what the wire makes of
the frame: the receive buffer takes the answer less its ethernet header, and the work counter
is read from it. Attempts without an answer and frames for other tasks leave no trace in it.
-/

namespace RaipalSoem

open Lib

/-- A frame of `n` bytes that answers index `idx`. -/
structure IsAnswer (idx n : Nat) (reply : Memory UInt8) : Prop where
  head : ethHeaderSize + 4 ≤ n
  fits : n ≤ ecMaxEcatFrame
  ecat : isEcat reply = true
  own : comIndex reply = idx

/-- In an attempt the frame is sent, and the primary socket brings the answer of `n` bytes, or
nothing. -/
structure OnWire (idx n : Nat) (reply : Option (Memory UInt8)) (a : Attempt) : Prop where
  sent : a.sent.1 = true
  brings : ∀ prim sec,
    Brings idx ((a.rounds prim sec).map Prod.fst) (reply.map fun m => m.read 0 n)

/-- A port with a frame in the transmit buffer of an index. -/
def EcPort.load (port : EcPort) (idx : Nat) (tx : TxFrame) : EcPort :=
  { port with
    txbuf := Function.update port.txbuf idx tx.frame
    txbuflength := Function.update port.txbuflength idx tx.txbuflength }

/-- What a task has for an exchange with an index: the buffers of the port and the wire, which
takes a frame as it is in its buffer and sets the source address. -/
def EcPort.exchange (port : EcPort) (idx : UInt8)
    (wire : Memory UInt8 → Option (Memory UInt8)) : FrameExchange where
  idx := idx
  txbuf := port.txbuf idx.toNat
  rxbuf := port.stack.rxbuf idx.toNat
  wire := wire

section Waiting

variable {txbuflength : Nat → Nat} {s : EcStack} {idx n : Nat} {reply : Memory UInt8}

theorem IsAnswer.header (h : IsAnswer idx n reply) :
    isEcat (frameOf (reply.read 0 n)) = true ∧ comIndex (frameOf (reply.read 0 n)) = idx ∧
      comLength (frameOf (reply.read 0 n)) = comLength reply := by
  obtain ⟨hecat, hindex, hlength⟩ :=
    header_congr (fun i (hi : i < n) => frameOf_read (m := reply) hi) h.head
  exact ⟨hecat.trans h.ecat, hindex.trans h.own, hlength⟩

/-- The answer is stored without its ethernet header. -/
theorem IsAnswer.ecxInframe_rxbuf (h : IsAnswer idx n reply) (hlen : txbuflength idx = n)
    (htx : s.rxbufstat idx = .tx) :
    (ecxInframe txbuflength s idx (some (reply.read 0 n))).1.rxbuf idx =
      (s.rxbuf idx).write 0 (reply.read ethHeaderSize (n - ethHeaderSize)) := by
  obtain ⟨hecat, hindex, -⟩ := h.header
  have hhead := h.head
  have hnot : ¬(idx < ecMaxBuf ∧ s.rxbufstat idx = .rcvd) := by simp [htx]
  have hpos : 0 < (reply.read 0 n).length := by
    rw [Memory.read_length]
    omega
  obtain ⟨t, hrecv, htemp⟩ := ecxRecvpkt_bytes s hpos (by simpa using h.fits)
  obtain ⟨hecat', hindex', -⟩ := header_congr htemp (by simpa using hhead)
  have hsame : t.read ethHeaderSize (n - ethHeaderSize) =
      reply.read ethHeaderSize (n - ethHeaderSize) := by
    apply Memory.read_congr
    intro i hi
    rw [mem_span] at hi
    rw [htemp i (by simp; omega), frameOf_read (by omega)]
  rw [ecxInframe, if_neg hnot]
  simp only [hrecv, hecat', hecat, hindex', hindex, if_true]
  simp only [storeFrame, Function.update_self, hlen, hsame]

/-- Waiting for an index stores its answer, whatever comes in before. -/
theorem IsAnswer.waitOne_rxbuf (h : IsAnswer idx n reply) (hlen : txbuflength idx = n)
    {w : Int} {polls : List RxPoll} (htx : s.rxbufstat idx = .tx)
    (hbrings : Brings idx polls (some (reply.read 0 n))) :
    (waitOne txbuflength idx (s, w) polls).1.rxbuf idx =
      (s.rxbuf idx).write 0 (reply.read ethHeaderSize (n - ethHeaderSize)) := by
  obtain ⟨hecat, hindex, -⟩ := h.header
  obtain ⟨before, after, rfl, hbefore⟩ := hbrings
  induction before generalizing s w with
  | nil =>
      have hown := ecxInframe_own txbuflength htx (by simpa using h.head)
        (by simpa using h.fits) hecat hindex
      have hfound := hown.found
      simp only [List.nil_append, waitOne]
      rw [if_neg (by omega)]
      exact h.ecxInframe_rxbuf hlen htx
  | cons p before ih =>
      obtain ⟨hle, htx', hkept⟩ := ecxInframe_notFor txbuflength htx
        (hbefore p List.mem_cons_self)
      simp only [List.cons_append, waitOne, if_pos hle]
      rw [← hkept]
      exact ih htx' fun q hq => hbefore q (List.mem_cons_of_mem _ hq)

/-- With one card only the primary socket is waited for. -/
theorem waitBoth_single (a b : EcStack × Int) (hb : ecNoFrame < b.2)
    (rounds : List (RxPoll × RxPoll)) :
    (waitBoth txbuflength idx false a b rounds).1 =
      waitMore txbuflength idx a (rounds.map Prod.fst) := by
  induction rounds generalizing a with
  | nil => simp [waitBoth, waitMore, waitOne]
  | cons r rounds ih =>
      simp only [waitBoth, Bool.false_eq_true, false_and, if_false, List.map_cons, waitMore_cons]
      generalize (if a.2 ≤ ecNoFrame then ecxInframe txbuflength a.1 idx r.1 else a) = a'
      by_cases hgoes : a'.2 ≤ ecNoFrame
      · rw [if_pos (Or.inl hgoes), ih]
      · rw [if_neg (by omega), waitMore, if_neg hgoes]

end Waiting

section Single

variable {port : EcPort} (hsingle : port.redstate = false) (idx : Nat)

include hsingle

/-- An attempt with one card. -/
theorem ecxWaitinframeRed_single (rounds : List (RxPoll × RxPoll)) (again : Resend) :
    let a := waitOne port.txbuflength idx (port.stack, ecNoFrame) (rounds.map Prod.fst)
    (ecxWaitinframeRed port idx rounds again).2 = a.2 ∧
      (ecxWaitinframeRed port idx rounds again).1.stack = a.1 ∧
      (ecxWaitinframeRed port idx rounds again).1.redstate = false := by
  have hwait : (waitBoth port.txbuflength idx false (port.stack, ecNoFrame)
      (port.redstack, 0) rounds).1 =
        waitOne port.txbuflength idx (port.stack, ecNoFrame) (rounds.map Prod.fst) :=
    (waitBoth_single _ _ (show ecNoFrame < 0 by decide) rounds).trans (if_pos le_rfl)
  simp only [ecxWaitinframeRed, hsingle, Bool.false_eq_true, if_false, hwait, and_self]

/-- A port with one card that has sent the frame of an index waits for its answer. -/
theorem ecxOutframeRed_single {sent : Bool × Bool} (hsent : sent.1 = true) :
    (ecxOutframeRed port idx sent).redstate = false ∧
      (ecxOutframeRed port idx sent).stack.rxbufstat idx = .tx ∧
      (ecxOutframeRed port idx sent).stack.rxbuf = port.stack.rxbuf ∧
      (ecxOutframeRed port idx sent).txbuflength = port.txbuflength := by
  simp [ecxOutframeRed, hsingle, ecxOutframe, hsent]

end Single

/-- With one card and no answer, the attempts leave the receive buffer as it was. -/
theorem ecxSrconfirm_lost {port : EcPort} {idx n : Nat} (hsingle : port.redstate = false)
    {attempts : List Attempt} (hwire : ∀ a ∈ attempts, OnWire idx n none a) :
    (ecxSrconfirm port idx attempts).2 ≤ ecNoFrame ∧
      (ecxSrconfirm port idx attempts).1.stack.rxbuf idx = port.stack.rxbuf idx := by
  induction attempts generalizing port with
  | nil => exact ⟨le_rfl, rfl⟩
  | cons a attempts ih =>
      have ha := hwire a List.mem_cons_self
      obtain ⟨hsent, htx, hbuf, -⟩ := ecxOutframeRed_single hsingle idx ha.sent
      simp only [ecxSrconfirm]
      rw [← hbuf]
      generalize ecxOutframeRed port idx a.sent = sentPort at hsent htx ⊢
      obtain ⟨hwkc, hstack, hred⟩ := ecxWaitinframeRed_single hsent idx
        (a.rounds (primaryFrame sentPort idx) (dummyFrame sentPort)) a.again
      obtain ⟨hle, hkept⟩ := waitOne_none sentPort.txbuflength (le_refl ecNoFrame) htx
        (ha.brings (primaryFrame sentPort idx) (dummyFrame sentPort))
      rw [← hwkc] at hle
      rw [← hstack] at hkept
      split_ifs
      · obtain ⟨hrest, hrestKept⟩ := ih hred fun b hb => hwire b (List.mem_cons_of_mem _ hb)
        exact ⟨hrest, hrestKept.trans hkept⟩
      · exact ⟨hle, hkept⟩

/-- With one card the first attempt that gets the answer stores it. -/
theorem ecxSrconfirm_answered {port : EcPort} {idx n : Nat} (hsingle : port.redstate = false)
    (hlen : port.txbuflength idx = n) {reply : Memory UInt8} (hreply : IsAnswer idx n reply)
    {a : Attempt} (ha : OnWire idx n (some reply) a) (attempts : List Attempt) :
    let rxbuf := (port.stack.rxbuf idx).write 0 (reply.read ethHeaderSize (n - ethHeaderSize))
    (ecxSrconfirm port idx (a :: attempts)).2 = rxWkc rxbuf (comLength reply) ∧
      (ecxSrconfirm port idx (a :: attempts)).1.stack.rxbuf idx = rxbuf := by
  intro rxbuf
  obtain ⟨hecat, hindex, hlength⟩ := hreply.header
  obtain ⟨hsent, htx, hbuf, hlengths⟩ := ecxOutframeRed_single hsingle idx ha.sent
  rw [← hlengths] at hlen
  simp only [ecxSrconfirm]
  generalize ecxOutframeRed port idx a.sent = sentPort at hsent htx hbuf hlen ⊢
  have hbrings := ha.brings (primaryFrame sentPort idx) (dummyFrame sentPort)
  obtain ⟨hwkc, hstack, -⟩ := ecxWaitinframeRed_single hsent idx
    (a.rounds (primaryFrame sentPort idx) (dummyFrame sentPort)) a.again
  have hanswered := waitOne_some sentPort.txbuflength (w := ecNoFrame) htx hbrings
    (by simpa using hreply.head) (by simpa using hreply.fits) hecat hindex
  have hstored := hreply.waitOne_rxbuf hlen (w := ecNoFrame) htx hbrings
  have hfound := hanswered.found
  have hcount := hanswered.wkc
  rw [← hwkc] at hfound hcount
  rw [← hstack, hbuf] at hstored
  rw [hlength, ← hstack, hstored] at hcount
  rw [if_neg (by omega)]
  exact ⟨hcount, hstored⟩

/-- With one card the exchange of the driver brings the work counter and the receive buffer of
`FrameExchange.srconfirm`; an exchange without an answer may also end with `EC_OTHERFRAME`. -/
theorem ecxSrconfirm_single {port : EcPort} (hsingle : port.redstate = false) {idx : UInt8}
    (wire : Memory UInt8 → Option (Memory UInt8)) {tx : TxFrame}
    (hreply : ∀ reply, wire tx.frame = some reply → IsAnswer idx.toNat tx.txbuflength reply)
    {attempts : List Attempt} (hne : attempts ≠ [])
    (hwire : ∀ a ∈ attempts, OnWire idx.toNat tx.txbuflength (wire tx.frame) a) :
    let got := (port.exchange idx wire).srconfirm tx
    let r := ecxSrconfirm (port.load idx.toNat tx) idx.toNat attempts
    max r.2 ecNoFrame = got.1 ∧ r.1.stack.rxbuf idx.toNat = got.2 := by
  have hload : (port.load idx.toNat tx).redstate = false := hsingle
  have hlen : (port.load idx.toNat tx).txbuflength idx.toNat = tx.txbuflength := by
    simp [EcPort.load]
  cases hcase : wire tx.frame with
  | none =>
      rw [hcase] at hwire
      obtain ⟨hle, hkept⟩ := ecxSrconfirm_lost hload hwire
      simp only [FrameExchange.srconfirm, EcPort.exchange, hcase]
      exact ⟨max_eq_right hle, hkept⟩
  | some reply =>
      rw [hcase] at hwire
      obtain ⟨a, attempts, rfl⟩ := List.exists_cons_of_ne_nil hne
      obtain ⟨hwkc, hbuf⟩ := ecxSrconfirm_answered hload hlen
        (hreply reply hcase) (hwire a List.mem_cons_self) attempts
      have hlast : ecNoFrame ≤ rxWkc ((port.stack.rxbuf idx.toNat).write 0
          (reply.read ethHeaderSize (tx.txbuflength - ethHeaderSize))) (comLength reply) :=
        le_trans (by decide) (rxWkc_nonneg _ _)
      simp only [FrameExchange.srconfirm, EcPort.exchange, hcase, hwkc, hbuf]
      exact ⟨max_eq_left hlast, rfl⟩

/-- A frame that the calls have built comes back from the slaves as an answer to its index. -/
theorem buildFrame_isAnswer (e : Endian) (frame : Memory UInt8) (idx : UInt8) (r : Request)
    (rs : List (Bool × Request)) (ring : List BusUnit) (hecat : isEcat frame = true)
    (hfits : 16 + frameFormat.total (requested idx r rs) ≤ ecMaxEcatFrame)
    (hmore : ∀ j (hj : j < rs.length), rs[j].1 = decide (j + 1 < rs.length)) :
    let built := (buildFrame e frame idx r rs).1
    IsAnswer idx.toNat built.txbuflength (passRing ring built.frame) := by
  intro built
  have hshort : frameFormat.total (requested idx r rs) < 2048 := by
    unfold ecMaxEcatFrame at hfits
    omega
  have hbuilt := buildFrame_built e frame idx r rs hshort
  have hcarries := (hbuilt.carries hshort).passRing ((requested_closed idx r rs).mpr hmore) ring
  have hfirst : 12 ≤ frameFormat.total (requested idx r rs) := by
    simp only [requested, ChainFormat.total_cons, frameFormat_size]
    omega
  refine ⟨?_, ?_, ?_, ?_⟩
  · rw [hbuilt.txbuflength, ethHeaderSize]
    omega
  · rw [hbuilt.txbuflength]
    exact hfits
  · rw [isEcat, passRing_header ring built.frame (by decide),
      passRing_header ring built.frame (by decide),
      buildFrame_header e frame idx r rs hshort (by decide),
      buildFrame_header e frame idx r rs hshort (by decide)]
    exact hecat
  · have hplace : readSubframe (passRing ring built.frame) 16 =
        serveAll ring (r.subframe idx (!rs.isEmpty)) := hcarries.laid.1
    have hindex := (congrArg Subframe.index hplace).trans (index_serveAll ring _)
    exact congrArg UInt8.toNat hindex

/-- With one card, sending a frame that the calls have built through the slaves is the exchange
`FrameExchange.srconfirm` on the wire of these slaves. -/
theorem ecxSrconfirm_passRing (e : Endian) {port : EcPort} (hsingle : port.redstate = false)
    {idx : UInt8} (r : Request) (rs : List (Bool × Request)) (ring : List BusUnit)
    (hecat : isEcat (port.txbuf idx.toNat) = true)
    (hfits : 16 + frameFormat.total (requested idx r rs) ≤ ecMaxEcatFrame)
    (hmore : ∀ j (hj : j < rs.length), rs[j].1 = decide (j + 1 < rs.length))
    {attempts : List Attempt} (hne : attempts ≠ [])
    (hwire : ∀ a ∈ attempts,
      OnWire idx.toNat (buildFrame e (port.txbuf idx.toNat) idx r rs).1.txbuflength
        (some (passRing ring (buildFrame e (port.txbuf idx.toNat) idx r rs).1.frame)) a) :
    let tx := (buildFrame e (port.txbuf idx.toNat) idx r rs).1
    let x := port.exchange idx fun m => some (passRing ring m)
    let got := ecxSrconfirm (port.load idx.toNat tx) idx.toNat attempts
    (got.2, got.1.stack.rxbuf idx.toNat) = x.srconfirm tx := by
  intro tx x got
  have hanswer : IsAnswer idx.toNat tx.txbuflength (passRing ring tx.frame) :=
    buildFrame_isAnswer e _ idx r rs ring hecat hfits hmore
  obtain ⟨hwkc, hbuf⟩ := ecxSrconfirm_single hsingle x.wire
    (fun reply h => Option.some.inj h ▸ hanswer) hne hwire
  have hnonneg : 0 ≤ (x.srconfirm tx).1 := rxWkc_nonneg _ _
  have hpos : got.2 = (x.srconfirm tx).1 := by
    have hmax : max got.2 ecNoFrame = (x.srconfirm tx).1 := hwkc
    simp only [ecNoFrame] at hmax
    omega
  rw [hpos]
  exact congrArg _ hbuf

end RaipalSoem
