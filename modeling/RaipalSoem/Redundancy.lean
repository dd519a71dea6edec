import RaipalSoem.NicDelivery

/-!
# Two network cards on one ring

In redundant mode the port sends the frame by the primary socket and a dummy frame by the
secondary one. From the source addresses of what comes back it tells whether the ring is
closed, and otherwise sends the frame on by the secondary socket. A ring with one cable
broken then works like a whole one.
-/

namespace RaipalSoem

open Lib

/-- `RX_PRIM`: the middle word of the primary source address. -/
def rxPrim : UInt16 := 0x0101

/-- `RX_SEC`: the middle word of the secondary source address. -/
def rxSec : UInt16 := 0x0404

/-- `ecx_portt` with its redundant port; `redstate` is true for `ECT_RED_DOUBLE`. -/
structure EcPort where
  stack : EcStack
  redstack : EcStack
  redstate : Bool
  txbuf : Nat → Memory UInt8
  txbuflength : Nat → Nat
  txbuf2 : Memory UInt8
  txbuflength2 : Nat

/-- What a poll finds in a socket. -/
abbrev RxPoll := Option (List UInt8)

/-- `ehp->sa1 = htons(word)` in an ethernet header. -/
def setSource (frame : Memory UInt8) (word : UInt16) : Memory UInt8 :=
  frame.write 8 [UInt8.ofNat (word.toNat / 256), UInt8.ofNat word.toNat]

/-- `datagramP->index = idx` behind an ethernet header. -/
def setIndex (frame : Memory UInt8) (idx : Nat) : Memory UInt8 :=
  frame.write (ethHeaderSize + 3) [UInt8.ofNat idx]

/-- `ecx_outframe_red`: the frame by the primary socket, the dummy by the secondary one. -/
def ecxOutframeRed (port : EcPort) (idx : Nat) (sent : Bool × Bool) : EcPort :=
  let port := { port with
    txbuf := Function.update port.txbuf idx (setSource (port.txbuf idx) rxPrim)
    stack := ecxOutframe port.stack idx sent.1 }
  if port.redstate then
    { port with
      txbuf2 := setSource (setIndex port.txbuf2 idx) rxSec
      redstack := ecxOutframe port.redstack idx sent.2 }
  else port

/-- The bytes that the primary socket sends for an index. -/
def primaryFrame (port : EcPort) (idx : Nat) : List UInt8 :=
  (port.txbuf idx).read 0 (port.txbuflength idx)

/-- The bytes of the dummy frame. -/
def dummyFrame (port : EcPort) : List UInt8 := port.txbuf2.read 0 port.txbuflength2

/-- The loop that waits for both frames: `a` and `b` hold a stack and its work counter, and
`rounds` what the sockets bring until the timer expires. -/
def waitBoth (txbuflength : Nat → Nat) (idx : Nat) (redstate : Bool) :
    EcStack × Int → EcStack × Int → List (RxPoll × RxPoll) → (EcStack × Int) × (EcStack × Int)
  | a, b, [] => (a, b)
  | a, b, r :: rounds =>
      let a := if a.2 ≤ ecNoFrame then ecxInframe txbuflength a.1 idx r.1 else a
      let b :=
        if redstate ∧ b.2 ≤ ecNoFrame then ecxInframe txbuflength b.1 idx r.2 else b
      if a.2 ≤ ecNoFrame ∨ b.2 ≤ ecNoFrame then waitBoth txbuflength idx redstate a b rounds
      else (a, b)

/-- The loop that waits on one socket. -/
def waitOne (txbuflength : Nat → Nat) (idx : Nat) : EcStack × Int → List RxPoll → EcStack × Int
  | a, [] => a
  | a, p :: polls =>
      let a := ecxInframe txbuflength a.1 idx p
      if a.2 ≤ ecNoFrame then waitOne txbuflength idx a polls else a

/-- `memcpy` of `n` bytes between two buffers. -/
def copyBytes (dst : Memory UInt8) (off : Nat) (src : Memory UInt8) (n : Nat) : Memory UInt8 :=
  dst.write off (src.read 0 n)

/-- Copy the secondary receive buffer of an index to the primary one. -/
def copySecondary (port : EcPort) (idx : Nat) : EcPort :=
  { port with
    stack := { port.stack with
      rxbuf := Function.update port.stack.rxbuf idx
        (copyBytes (port.stack.rxbuf idx) 0 (port.redstack.rxbuf idx)
          (port.txbuflength idx - ethHeaderSize)) } }

/-- The second sending of an attempt: whether the socket takes the frame, and what it brings
afterwards, which depends on the frame sent. -/
structure Resend where
  sent : Bool
  polls : List UInt8 → List RxPoll

/-- Send the frame of an index by the secondary socket and wait for it; without an answer
the work counter stays `wkc`. -/
def resendSecondary (port : EcPort) (idx : Nat) (wkc : Int) (again : Resend) : EcPort × Int :=
  let (redstack, wkc2) :=
    waitOne port.txbuflength idx (ecxOutframe port.redstack idx again.sent, ecNoFrame)
      (again.polls (primaryFrame port idx))
  let port := { port with redstack := redstack }
  if ecNoFrame < wkc2 then (copySecondary port idx, wkc2) else (port, wkc)

/-- The decision on the source addresses `primrx` and `secrx` of what has come in. -/
def routeFrames (port : EcPort) (idx : Nat) (primrx secrx : UInt16) (wkc wkc2 : Int)
    (again : Resend) : EcPort × Int :=
  if primrx = rxSec ∧ secrx = rxPrim then (copySecondary port idx, wkc2)
  else if primrx = 0 ∧ secrx = rxSec ∨ primrx = rxPrim ∧ secrx = rxSec then
    let port :=
      if primrx = rxPrim ∧ secrx = rxSec then
        { port with
          txbuf := Function.update port.txbuf idx
            (copyBytes (port.txbuf idx) ethHeaderSize (port.stack.rxbuf idx)
              (port.txbuflength idx - ethHeaderSize)) }
      else port
    resendSecondary port idx wkc again
  else (port, wkc)

/-- `ecx_waitinframe_red`: wait for the frames, and in redundant mode send the frame on
where the ring is open. -/
def ecxWaitinframeRed (port : EcPort) (idx : Nat) (rounds : List (RxPoll × RxPoll))
    (again : Resend) : EcPort × Int :=
  let (a, b) :=
    waitBoth port.txbuflength idx port.redstate (port.stack, ecNoFrame)
      (port.redstack, if port.redstate then ecNoFrame else 0) rounds
  let port := { port with stack := a.1, redstack := b.1 }
  if port.redstate then
    let primrx := if ecNoFrame < a.2 then a.1.rxsa idx else 0
    let secrx := if ecNoFrame < b.2 then b.1.rxsa idx else 0
    routeFrames port idx primrx secrx a.2 b.2 again
  else (port, a.2)

/-- One attempt of `ecx_srconfirm`: whether the sockets take the frames, and what they bring
afterwards, which depends on the frames sent. -/
structure Attempt where
  sent : Bool × Bool
  rounds : List UInt8 → List UInt8 → List (RxPoll × RxPoll)
  again : Resend

/-- `ecx_srconfirm`: send and wait, again and again until an answer comes or the attempts
that fit the timeout are used up. -/
def ecxSrconfirm (port : EcPort) (idx : Nat) : List Attempt → EcPort × Int
  | [] => (port, ecNoFrame)
  | a :: attempts =>
      let port := ecxOutframeRed port idx a.sent
      let (port, wkc) :=
        ecxWaitinframeRed port idx (a.rounds (primaryFrame port idx) (dummyFrame port)) a.again
      if wkc ≤ ecNoFrame ∧ attempts ≠ [] then ecxSrconfirm port idx attempts else (port, wkc)

/-- What a slave does to the datagrams of a frame that passes it forwards: it keeps their
length and the head of the first one, with the length field and the index. -/
structure RingSlave where
  run : List UInt8 → List UInt8
  length_run : ∀ p, (run p).length = p.length
  take_run : ∀ p, (run p).take 4 = p.take 4

/-- The datagrams after some slaves. -/
def runAll (slaves : List RingSlave) (p : List UInt8) : List UInt8 :=
  slaves.foldl (fun p s => s.run p) p

/-- A frame after some slaves; the ethernet header passes. -/
def runFrame (slaves : List RingSlave) (frame : List UInt8) : List UInt8 :=
  frame.take ethHeaderSize ++ runAll slaves (frame.drop ethHeaderSize)

/-- The cables of the ring: all whole, or one broken behind the first `k` slaves. -/
inductive Cables
  | whole
  | broken (k : Nat)

/-- What comes back to the primary socket. The slaves work on a frame only as it passes
them forwards; a frame that reaches a broken cable turns back. -/
def backPrimary (slaves : List RingSlave) (cables : Cables) (prim sec : List UInt8) : RxPoll :=
  match cables with
  | .whole => some sec
  | .broken 0 => none
  | .broken (k + 1) => some (runFrame (slaves.take (k + 1)) prim)

/-- What comes back to the secondary socket. -/
def backSecondary (slaves : List RingSlave) (cables : Cables) (prim sec : List UInt8) : RxPoll :=
  match cables with
  | .whole => some (runFrame slaves prim)
  | .broken k => if k < slaves.length then some (runFrame (slaves.drop k) sec) else none

/-- A poll that brings nothing for index `idx`. -/
def NotFor (idx : Nat) : RxPoll → Prop
  | none => True
  | some bytes => ethHeaderSize + 4 ≤ bytes.length ∧ bytes.length ≤ ecMaxEcatFrame ∧
      ¬(isEcat (frameOf bytes) = true ∧ comIndex (frameOf bytes) = idx)

/-- The polls bring a frame for index `idx` sooner or later, or none at all; frames with
other indices may come at any time. -/
def Brings (idx : Nat) (polls : List RxPoll) : RxPoll → Prop
  | none => ∀ p ∈ polls, NotFor idx p
  | some bytes => ∃ before after, polls = before ++ some bytes :: after ∧
      ∀ p ∈ before, NotFor idx p

/-- In an attempt the frames are sent, and the sockets bring what comes back. -/
structure OnRing (slaves : List RingSlave) (cables : Cables) (idx : Nat) (a : Attempt) :
    Prop where
  sent : a.sent = (true, true)
  primary : ∀ prim sec,
    Brings idx ((a.rounds prim sec).map Prod.fst) (backPrimary slaves cables prim sec)
  secondary : ∀ prim sec,
    Brings idx ((a.rounds prim sec).map Prod.snd) (backSecondary slaves cables prim sec)
  resent : a.again.sent = true
  again : ∀ frame, Brings idx (a.again.polls frame) (backSecondary slaves cables [] frame)

@[simp] theorem length_runAll (slaves : List RingSlave) (p : List UInt8) :
    (runAll slaves p).length = p.length := by
  induction slaves generalizing p with
  | nil => rfl
  | cons s slaves ih => exact (ih (s.run p)).trans (s.length_run p)

theorem take_runAll (slaves : List RingSlave) (p : List UInt8) :
    (runAll slaves p).take 4 = p.take 4 := by
  induction slaves generalizing p with
  | nil => rfl
  | cons s slaves ih => exact (ih (s.run p)).trans (s.take_run p)

theorem runAll_append (slaves slaves' : List RingSlave) (p : List UInt8) :
    runAll slaves' (runAll slaves p) = runAll (slaves ++ slaves') p := by
  simp [runAll, List.foldl_append]

/-- A frame keeps its head, up to the index of the first datagram, on its way. -/
theorem take_runFrame (slaves : List RingSlave) {frame : List UInt8}
    (h : ethHeaderSize ≤ frame.length) :
    (runFrame slaves frame).take (ethHeaderSize + 4) = frame.take (ethHeaderSize + 4) := by
  have hlen : (frame.take ethHeaderSize).length = ethHeaderSize := by simp [h]
  calc
    (runFrame slaves frame).take (ethHeaderSize + 4)
    _ = frame.take ethHeaderSize ++ (runAll slaves (frame.drop ethHeaderSize)).take 4 := by
      rw [runFrame, List.take_append, hlen, Nat.add_sub_cancel_left,
        List.take_of_length_le (by omega)]
    _ = frame.take ethHeaderSize ++ (frame.drop ethHeaderSize).take 4 := by rw [take_runAll]
    _ = frame.take (ethHeaderSize + 4) := List.take_add.symm

theorem drop_runFrame (slaves : List RingSlave) {frame : List UInt8}
    (h : ethHeaderSize ≤ frame.length) :
    (runFrame slaves frame).drop ethHeaderSize = runAll slaves (frame.drop ethHeaderSize) := by
  have hlen : (frame.take ethHeaderSize).length = ethHeaderSize := by simp [h]
  rw [runFrame, List.drop_append_of_le_length (by omega), List.drop_of_length_le (by omega),
    List.nil_append]

@[simp] theorem length_runFrame (slaves : List RingSlave) (frame : List UInt8) :
    (runFrame slaves frame).length = frame.length := by
  simp [runFrame]
  omega

/-- Frames with the same head have the same type, index, length field and source. -/
theorem frameOf_congr {b b' : List UInt8}
    (h : b.take (ethHeaderSize + 4) = b'.take (ethHeaderSize + 4)) :
    isEcat (frameOf b) = isEcat (frameOf b') ∧ comIndex (frameOf b) = comIndex (frameOf b') ∧
      comLength (frameOf b) = comLength (frameOf b') ∧
      sourceWord (frameOf b) = sourceWord (frameOf b') := by
  have hsame : ∀ i < ethHeaderSize + 4, frameOf b i = frameOf b' i := by
    intro i hi
    have hget : (b.take (ethHeaderSize + 4))[i]? = (b'.take (ethHeaderSize + 4))[i]? := by
      rw [h]
    rw [List.getElem?_take_of_lt hi, List.getElem?_take_of_lt hi] at hget
    simp [frameOf, hget]
  obtain ⟨hecat, hindex, hlength⟩ := header_congr hsame le_rfl
  refine ⟨hecat, hindex, hlength, ?_⟩
  simp only [sourceWord]
  rw [hsame 8 (by decide), hsame 9 (by decide)]

/-- Index `idx` has been answered by the frame `bytes`. -/
structure Answered (txbuflength : Nat → Nat) (a : EcStack × Int) (idx : Nat)
    (bytes : List UInt8) : Prop where
  wkc : a.2 = rxWkc (a.1.rxbuf idx) (comLength (frameOf bytes))
  source : a.1.rxsa idx = sourceWord (frameOf bytes)
  stored : txbuflength idx ≤ bytes.length →
    ethHeaderSize + comLength (frameOf bytes) + 2 ≤ txbuflength idx →
    Stored txbuflength a.1 idx bytes

theorem rxWkc_nonneg (m : Memory UInt8) (l : Nat) : 0 ≤ rxWkc m l := by
  simp only [rxWkc]
  omega

theorem Answered.found {txbuflength : Nat → Nat} {a : EcStack × Int} {idx : Nat}
    {bytes : List UInt8} (h : Answered txbuflength a idx bytes) : ecNoFrame < a.2 := by
  have := rxWkc_nonneg (a.1.rxbuf idx) (comLength (frameOf bytes))
  rw [h.wkc, ecNoFrame]
  omega

section Waiting

variable {txbuflength : Nat → Nat} {s : EcStack} {idx : Nat}

variable (txbuflength) in
/-- A poll that brings nothing for the index leaves its buffer waiting, and as it was. -/
theorem ecxInframe_notFor (htx : s.rxbufstat idx = .tx) {p : RxPoll} (hp : NotFor idx p) :
    (ecxInframe txbuflength s idx p).2 ≤ ecNoFrame ∧
      (ecxInframe txbuflength s idx p).1.rxbufstat idx = .tx ∧
      (ecxInframe txbuflength s idx p).1.rxbuf idx = s.rxbuf idx := by
  have hnot : ¬(idx < ecMaxBuf ∧ s.rxbufstat idx = .rcvd) := by simp [htx]
  rw [ecxInframe, if_neg hnot]
  cases p with
  | none => exact ⟨le_rfl, htx, rfl⟩
  | some bytes =>
      obtain ⟨hheader, hfits, hother⟩ := hp
      obtain ⟨t, hrecv, htemp⟩ := ecxRecvpkt_bytes s (by omega) hfits
      obtain ⟨hecat, hindex, -⟩ := header_congr htemp hheader
      have hle : ecOtherFrame ≤ ecNoFrame := by decide
      simp only [hrecv, hecat, hindex]
      split_ifs with h1 h2 h3
      · exact absurd ⟨h1, h2⟩ hother
      · have hne : idx ≠ comIndex (frameOf bytes) := fun he => h2 he.symm
        simp only [storeFrame]
        rw [Function.update_of_ne hne, Function.update_of_ne hne]
        exact ⟨hle, htx, rfl⟩
      · exact ⟨hle, htx, rfl⟩
      · exact ⟨hle, htx, rfl⟩

variable (txbuflength) in
/-- The frame with the index answers it. -/
theorem ecxInframe_own (htx : s.rxbufstat idx = .tx) {bytes : List UInt8}
    (hheader : ethHeaderSize + 4 ≤ bytes.length) (hfits : bytes.length ≤ ecMaxEcatFrame)
    (hecat : isEcat (frameOf bytes) = true) (hidx : comIndex (frameOf bytes) = idx) :
    Answered txbuflength (ecxInframe txbuflength s idx (some bytes)) idx bytes := by
  have hnot : ¬(idx < ecMaxBuf ∧ s.rxbufstat idx = .rcvd) := by simp [htx]
  obtain ⟨t, hrecv, htemp⟩ := ecxRecvpkt_bytes s (by omega) hfits
  obtain ⟨hecat', hindex', hlength'⟩ := header_congr htemp hheader
  rw [ecxInframe, if_neg hnot]
  simp only [hrecv, hecat', hecat, hindex', hidx, if_true, hlength']
  refine ⟨rfl, ?_, ?_⟩
  · simp only [storeFrame, Function.update_self, sourceWord]
    simp only [ethHeaderSize] at hheader
    rw [htemp 8 (by omega), htemp 9 (by omega)]
  · intro hlong hcounted
    exact stored_storeFrame htemp hlong hcounted

variable (txbuflength) in
theorem waitOne_none {w : Int} (hw : w ≤ ecNoFrame) {polls : List RxPoll}
    (htx : s.rxbufstat idx = .tx) (h : Brings idx polls none) :
    (waitOne txbuflength idx (s, w) polls).2 ≤ ecNoFrame ∧
      (waitOne txbuflength idx (s, w) polls).1.rxbuf idx = s.rxbuf idx := by
  induction polls generalizing s w with
  | nil => exact ⟨hw, rfl⟩
  | cons p polls ih =>
      obtain ⟨hle, htx', hkept⟩ := ecxInframe_notFor txbuflength htx
        (h p List.mem_cons_self)
      simp only [waitOne, if_pos hle]
      rw [← hkept]
      exact ih hle htx' fun q hq => h q (List.mem_cons_of_mem _ hq)

variable (txbuflength) in
theorem waitOne_some {w : Int} {polls : List RxPoll} {bytes : List UInt8}
    (htx : s.rxbufstat idx = .tx) (h : Brings idx polls (some bytes))
    (hheader : ethHeaderSize + 4 ≤ bytes.length) (hfits : bytes.length ≤ ecMaxEcatFrame)
    (hecat : isEcat (frameOf bytes) = true) (hidx : comIndex (frameOf bytes) = idx) :
    Answered txbuflength (waitOne txbuflength idx (s, w) polls) idx bytes := by
  obtain ⟨before, after, rfl, hbefore⟩ := h
  induction before generalizing s w with
  | nil =>
      have hown := ecxInframe_own txbuflength htx hheader hfits hecat hidx
      have hfound := hown.found
      simp only [List.nil_append, waitOne]
      rw [if_neg (by omega)]
      exact hown
  | cons p before ih =>
      obtain ⟨hle, htx', -⟩ := ecxInframe_notFor txbuflength htx
        (hbefore p List.mem_cons_self)
      simp only [List.cons_append, waitOne, if_pos hle]
      exact ih htx' fun q hq => hbefore q (List.mem_cons_of_mem _ hq)

/-- Waiting on one socket, unless its frame is in already. -/
def waitMore (txbuflength : Nat → Nat) (idx : Nat) (a : EcStack × Int) (polls : List RxPoll) :
    EcStack × Int :=
  if a.2 ≤ ecNoFrame then waitOne txbuflength idx a polls else a

theorem waitMore_cons (a : EcStack × Int) (p : RxPoll) (polls : List RxPoll) :
    waitMore txbuflength idx a (p :: polls) =
      waitMore txbuflength idx
        (if a.2 ≤ ecNoFrame then ecxInframe txbuflength a.1 idx p else a) polls := by
  by_cases ha : a.2 ≤ ecNoFrame
  · simp only [waitMore, if_pos ha, waitOne]
  · simp only [waitMore, if_neg ha]

/-- Waiting for both frames is waiting for each. -/
theorem waitBoth_eq (a b : EcStack × Int) (rounds : List (RxPoll × RxPoll)) :
    waitBoth txbuflength idx true a b rounds =
      (waitMore txbuflength idx a (rounds.map Prod.fst),
        waitMore txbuflength idx b (rounds.map Prod.snd)) := by
  induction rounds generalizing a b with
  | nil => simp [waitBoth, waitMore, waitOne]
  | cons r rounds ih =>
      simp only [waitBoth, true_and, ih, List.map_cons, waitMore_cons]
      generalize (if a.2 ≤ ecNoFrame then ecxInframe txbuflength a.1 idx r.1 else a) = a'
      generalize (if b.2 ≤ ecNoFrame then ecxInframe txbuflength b.1 idx r.2 else b) = b'
      by_cases hgoes : a'.2 ≤ ecNoFrame ∨ b'.2 ≤ ecNoFrame
      · rw [if_pos hgoes]
      · rw [not_or] at hgoes
        rw [if_neg (by simpa using hgoes), waitMore, waitMore, if_neg hgoes.1, if_neg hgoes.2]

end Waiting

/-- A port in redundant mode whose frame of index `idx` is built, and whose dummy frame is an
EtherCAT frame. -/
structure ReadyToSend (port : EcPort) (idx : Nat) : Prop where
  redundant : port.redstate = true
  index : idx < ecMaxBuf
  fits : port.txbuflength idx ≤ ecMaxEcatFrame
  counted : ethHeaderSize + comLength (port.txbuf idx) + 2 ≤ port.txbuflength idx
  head : ethHeaderSize + 4 ≤ port.txbuflength idx
  ecat : isEcat (port.txbuf idx) = true
  own : comIndex (port.txbuf idx) = idx
  dummyFits : port.txbuflength2 ≤ ecMaxEcatFrame
  dummyHead : ethHeaderSize + 4 ≤ port.txbuflength2
  dummyEcat : isEcat port.txbuf2 = true

/-- A frame that waits for an answer to index `idx`. -/
structure Sendable (idx : Nat) (word : UInt16) (frame : List UInt8) : Prop where
  head : ethHeaderSize + 4 ≤ frame.length
  fits : frame.length ≤ ecMaxEcatFrame
  ecat : isEcat (frameOf frame) = true
  own : comIndex (frameOf frame) = idx
  source : sourceWord (frameOf frame) = word

theorem Sendable.runFrame {idx : Nat} {word : UInt16} {frame : List UInt8}
    (h : Sendable idx word frame) (slaves : List RingSlave) :
    Sendable idx word (runFrame slaves frame) := by
  obtain ⟨hecat, hindex, -, hsource⟩ :=
    frameOf_congr (take_runFrame slaves
      (show ethHeaderSize ≤ frame.length by have := h.head; omega))
  exact ⟨by simpa using h.head, by simpa using h.fits, hecat.trans h.ecat, hindex.trans h.own,
    hsource.trans h.source⟩

theorem frameOf_read {m : Memory UInt8} {n i : Nat} (h : i < n) :
    frameOf (m.read 0 n) i = m i := by
  simp [frameOf, Memory.read, h]

theorem setSource_of_le (m : Memory UInt8) (word : UInt16) {i : Nat} (h : 10 ≤ i) :
    setSource m word i = m i := by
  apply Memory.write_of_not_mem
  simp only [mem_span, List.length_cons, List.length_nil]
  omega

theorem sourceWord_setSource (m : Memory UInt8) (word : UInt16) :
    sourceWord (setSource m word) = word := by
  have h8 : setSource m word 8 = UInt8.ofNat (word.toNat / 256) :=
    Memory.write_of_mem m 8 0 _ (by simp)
  have h9 : setSource m word 9 = UInt8.ofNat word.toNat :=
    Memory.write_of_mem m 8 1 _ (by simp)
  have hlt := word.toNat_lt
  have hsum : 256 * (word.toNat / 256 % 2 ^ 8) + word.toNat % 2 ^ 8 = word.toNat := by omega
  simp only [sourceWord, h8, h9, UInt8.toNat_ofNat']
  rw [hsum]
  exact UInt16.ofNat_toNat

/-- A frame is sendable when its buffer is. -/
theorem sendable_read {m : Memory UInt8} {n idx : Nat} {word : UInt16}
    (hhead : ethHeaderSize + 4 ≤ n) (hfits : n ≤ ecMaxEcatFrame) (hecat : isEcat m = true)
    (hown : comIndex m = idx) (hsource : sourceWord m = word) :
    Sendable idx word (m.read 0 n) := by
  obtain ⟨hecat', hindex', -⟩ :=
    header_congr (fun i (hi : i < n) => frameOf_read (m := m) hi) hhead
  refine ⟨by simpa using hhead, by simpa using hfits, hecat'.trans hecat,
    hindex'.trans hown, ?_⟩
  simp only [ethHeaderSize] at hhead
  simp only [sourceWord] at hsource ⊢
  rwa [frameOf_read (by omega), frameOf_read (by omega)]

theorem sendable_primary {port : EcPort} {idx : Nat} (h : ReadyToSend port idx)
    (sent : Bool × Bool) :
    Sendable idx rxPrim (primaryFrame (ecxOutframeRed port idx sent) idx) := by
  have hbuf : (ecxOutframeRed port idx sent).txbuf idx = setSource (port.txbuf idx) rxPrim := by
    simp [ecxOutframeRed, h.redundant]
  have hlen : (ecxOutframeRed port idx sent).txbuflength = port.txbuflength := by
    simp [ecxOutframeRed, h.redundant]
  rw [primaryFrame, hbuf, hlen]
  refine sendable_read h.head h.fits ?_ ?_ (sourceWord_setSource _ _)
  · rw [isEcat, setSource_of_le _ _ (by decide), setSource_of_le _ _ (by decide)]
    exact h.ecat
  · rw [comIndex, setSource_of_le _ _ (by decide)]
    exact h.own

theorem sendable_dummy {port : EcPort} {idx : Nat} (h : ReadyToSend port idx)
    (sent : Bool × Bool) :
    Sendable idx rxSec (dummyFrame (ecxOutframeRed port idx sent)) := by
  have hbuf : (ecxOutframeRed port idx sent).txbuf2 =
      setSource (setIndex port.txbuf2 idx) rxSec := by
    simp [ecxOutframeRed, h.redundant]
  have hlen : (ecxOutframeRed port idx sent).txbuflength2 = port.txbuflength2 := by
    simp [ecxOutframeRed, h.redundant]
  have hkeep (i : Nat) (hi : i < ethHeaderSize + 3) :
      setIndex port.txbuf2 idx i = port.txbuf2 i := by
    apply Memory.write_of_not_mem
    simp only [mem_span]
    omega
  have hindex : setIndex port.txbuf2 idx (ethHeaderSize + 3) = UInt8.ofNat idx :=
    Memory.write_of_mem port.txbuf2 (ethHeaderSize + 3) 0 _ (by simp)
  rw [dummyFrame, hbuf, hlen]
  refine sendable_read h.dummyHead h.dummyFits ?_ ?_ (sourceWord_setSource _ _)
  · rw [isEcat, setSource_of_le _ _ (by decide), setSource_of_le _ _ (by decide),
      hkeep 12 (by decide), hkeep 13 (by decide)]
    exact h.dummyEcat
  · have hidx := h.index
    simp only [ecMaxBuf] at hidx
    rw [comIndex, setSource_of_le _ _ (by decide), hindex, UInt8.toNat_ofNat']
    omega

/-- The exchange of index `idx` has brought the frame `bytes`. -/
structure Brought (r : EcPort × Int) (idx n : Nat) (bytes : List UInt8) : Prop where
  wkc : r.2 = frameWkc bytes
  buffer : (r.1.stack.rxbuf idx).read 0 n = bytes.drop ethHeaderSize

@[simp] theorem read_copyBytes (dst : Memory UInt8) (off : Nat) (src : Memory UInt8) (n : Nat) :
    (copyBytes dst off src n).read off n = src.read 0 n := by
  have h := Memory.read_write dst off (src.read 0 n)
  rwa [Memory.read_length] at h

/-- In front of the copied bytes nothing changes. -/
theorem read_copyBytes_before (dst : Memory UInt8) {off : Nat} (src : Memory UInt8) (n : Nat) :
    (copyBytes dst off src n).read 0 off = dst.read 0 off := by
  apply Memory.read_congr
  intro i hi
  apply Memory.write_of_not_mem
  simp only [mem_span] at hi ⊢
  omega

theorem Answered.brought {txbuflength : Nat → Nat} {a : EcStack × Int} {idx : Nat}
    {bytes : List UInt8} (h : Answered txbuflength a idx bytes)
    (hlen : bytes.length = txbuflength idx)
    (hcounted : ethHeaderSize + comLength (frameOf bytes) + 2 ≤ txbuflength idx) :
    a.2 = frameWkc bytes ∧
      (a.1.rxbuf idx).read 0 (txbuflength idx - ethHeaderSize) = bytes.drop ethHeaderSize := by
  have hstored := h.stored hlen.ge hcounted
  refine ⟨h.wkc.trans hstored.rxWkc_eq, ?_⟩
  rw [hstored.read_eq]
  exact List.take_of_length_le (by simp [hlen])

theorem copySecondary_read (port : EcPort) (idx : Nat) :
    ((copySecondary port idx).stack.rxbuf idx).read 0 (port.txbuflength idx - ethHeaderSize) =
      (port.redstack.rxbuf idx).read 0 (port.txbuflength idx - ethHeaderSize) := by
  simp [copySecondary]

/-- The waiting loop decides on what each socket brings. -/
theorem ecxWaitinframeRed_eq {port : EcPort} {idx : Nat} (hred : port.redstate = true)
    (rounds : List (RxPoll × RxPoll)) (again : Resend) :
    let a := waitOne port.txbuflength idx (port.stack, ecNoFrame) (rounds.map Prod.fst)
    let b := waitOne port.txbuflength idx (port.redstack, ecNoFrame) (rounds.map Prod.snd)
    ecxWaitinframeRed port idx rounds again =
      routeFrames { port with stack := a.1, redstack := b.1 } idx
        (if ecNoFrame < a.2 then a.1.rxsa idx else 0)
        (if ecNoFrame < b.2 then b.1.rxsa idx else 0) a.2 b.2 again := by
  intro a b
  simp only [ecxWaitinframeRed, hred, if_true, waitBoth_eq, waitMore, if_pos le_rfl]
  rfl

/-- The source address of the answer on a stack. -/
theorem Answered.source_eq {txbuflength : Nat → Nat} {a : EcStack × Int} {idx : Nat}
    {bytes : List UInt8} {word : UInt16} (h : Answered txbuflength a idx bytes)
    (hbytes : Sendable idx word bytes) :
    (if ecNoFrame < a.2 then a.1.rxsa idx else 0) = word := by
  rw [if_pos h.found, h.source, hbytes.source]

/-- A frame sent by the secondary socket that comes back as `bytes`. -/
theorem resendSecondary_brought {port : EcPort} {idx : Nat} (wkc : Int) {again : Resend}
    {bytes : List UInt8} (hresent : again.sent = true)
    (hagain : Brings idx (again.polls (primaryFrame port idx)) (some bytes))
    {word : UInt16} (hbytes : Sendable idx word bytes)
    (hlen : bytes.length = port.txbuflength idx)
    (hcounted : ethHeaderSize + comLength (frameOf bytes) + 2 ≤ port.txbuflength idx) :
    Brought (resendSecondary port idx wkc again) idx (port.txbuflength idx - ethHeaderSize)
      bytes := by
  have htx : (ecxOutframe port.redstack idx again.sent).rxbufstat idx = .tx := by
    simp [ecxOutframe, hresent]
  have hanswered := waitOne_some port.txbuflength (w := ecNoFrame) htx hagain
    hbytes.head hbytes.fits hbytes.ecat hbytes.own
  obtain ⟨hwkc, hread⟩ := hanswered.brought hlen hcounted
  simp only [resendSecondary, if_pos hanswered.found]
  exact ⟨hwkc, (copySecondary_read _ idx).trans hread⟩

theorem runFrame_append (slaves slaves' : List RingSlave) {frame : List UInt8}
    (h : ethHeaderSize ≤ frame.length) :
    runFrame slaves' (runFrame slaves frame) = runFrame (slaves ++ slaves') frame := by
  have htake : (runFrame slaves frame).take ethHeaderSize = frame.take ethHeaderSize := by
    rw [runFrame, List.take_append_of_le_length (by simp [h]), List.take_take, min_self]
  rw [runFrame, htake, drop_runFrame slaves h, runAll_append, runFrame]

/-- The frame that is sent on carries what the primary socket has brought. -/
theorem primaryFrame_copied {port : EcPort} {idx : Nat} {slaves : List RingSlave}
    {a : EcStack × Int} {txbuflength : Nat → Nat} (htx : txbuflength = port.txbuflength)
    (hhead : ethHeaderSize ≤ port.txbuflength idx)
    (hread : (a.1.rxbuf idx).read 0 (txbuflength idx - ethHeaderSize) =
      (runFrame slaves (primaryFrame port idx)).drop ethHeaderSize) :
    (copyBytes (port.txbuf idx) ethHeaderSize (a.1.rxbuf idx)
      (txbuflength idx - ethHeaderSize)).read 0 (txbuflength idx) =
        runFrame slaves (primaryFrame port idx) := by
  subst htx
  have hlen : ethHeaderSize + (port.txbuflength idx - ethHeaderSize) = port.txbuflength idx := by
    omega
  have hframe : ethHeaderSize ≤ (primaryFrame port idx).length := by
    simpa [primaryFrame] using hhead
  have htake : (port.txbuf idx).read 0 ethHeaderSize =
      (primaryFrame port idx).take ethHeaderSize := (Memory.take_read hhead).symm
  calc
    (copyBytes (port.txbuf idx) ethHeaderSize (a.1.rxbuf idx)
      (port.txbuflength idx - ethHeaderSize)).read 0 (port.txbuflength idx)
    _ = (port.txbuf idx).read 0 ethHeaderSize ++
        (a.1.rxbuf idx).read 0 (port.txbuflength idx - ethHeaderSize) := by
      conv_lhs => rw [← hlen]
      rw [Memory.read_add, read_copyBytes_before, hlen, Nat.zero_add, read_copyBytes]
    _ = runFrame slaves (primaryFrame port idx) := by
      rw [htake, hread, drop_runFrame slaves hframe, runFrame]

/-- The exchange on a ring, once the frames are sent. -/
theorem ecxWaitinframeRed_ring {slaves : List RingSlave} (hslaves : slaves ≠ [])
    {cables : Cables} {port : EcPort} {idx : Nat} (hred : port.redstate = true)
    (htx : port.stack.rxbufstat idx = .tx) (htx2 : port.redstack.rxbufstat idx = .tx)
    (hprim : Sendable idx rxPrim (primaryFrame port idx)) {dummy : List UInt8}
    (hdummy : Sendable idx rxSec dummy)
    (hcounted : ethHeaderSize + comLength (frameOf (primaryFrame port idx)) + 2 ≤
      port.txbuflength idx)
    {rounds : List (RxPoll × RxPoll)} {again : Resend}
    (hprimary : Brings idx (rounds.map Prod.fst)
      (backPrimary slaves cables (primaryFrame port idx) dummy))
    (hsecondary : Brings idx (rounds.map Prod.snd)
      (backSecondary slaves cables (primaryFrame port idx) dummy))
    (hresent : again.sent = true)
    (hagain : ∀ frame, Brings idx (again.polls frame) (backSecondary slaves cables [] frame)) :
    Brought (ecxWaitinframeRed port idx rounds again) idx
      (port.txbuflength idx - ethHeaderSize) (runFrame slaves (primaryFrame port idx)) := by
  have hframe : ethHeaderSize ≤ (primaryFrame port idx).length := by
    have := hprim.head
    omega
  have hlen (ss : List RingSlave) :
      (runFrame ss (primaryFrame port idx)).length = port.txbuflength idx := by
    simp [primaryFrame]
  have hcount (ss : List RingSlave) :
      ethHeaderSize + comLength (frameOf (runFrame ss (primaryFrame port idx))) + 2 ≤
        port.txbuflength idx := by
    rw [(frameOf_congr (take_runFrame ss hframe)).2.2.1]
    exact hcounted
  have hfound {stack : EcStack} (hstat : stack.rxbufstat idx = .tx) {polls : List RxPoll}
      {word : UInt16} {bytes : List UInt8} (hbytes : Sendable idx word bytes)
      (hbrings : Brings idx polls (some bytes)) :
      Answered port.txbuflength
        (waitOne port.txbuflength idx (stack, ecNoFrame) polls) idx bytes :=
    waitOne_some _ hstat hbrings hbytes.head hbytes.fits hbytes.ecat hbytes.own
  rw [ecxWaitinframeRed_eq hred]
  cases cables with
  | whole =>
      have ha := hfound htx hdummy hprimary
      have hb := hfound htx2 (hprim.runFrame slaves) hsecondary
      obtain ⟨hwkc, hread⟩ := hb.brought (hlen slaves) (hcount slaves)
      rw [ha.source_eq hdummy, hb.source_eq (hprim.runFrame slaves), routeFrames,
        if_pos ⟨rfl, rfl⟩]
      exact ⟨hwkc, (copySecondary_read _ idx).trans hread⟩
  | broken k =>
      cases k with
      | zero =>
          -- the primary socket is cut off: the secondary one does it all
          have hpos : 0 < slaves.length := List.length_pos_iff.mpr hslaves
          simp only [backSecondary, if_pos hpos, List.drop_zero] at hsecondary hagain
          have ha := (waitOne_none port.txbuflength le_rfl htx hprimary).1
          have hb := hfound htx2 (hdummy.runFrame slaves) hsecondary
          rw [hb.source_eq (hdummy.runFrame slaves), if_neg (by omega), routeFrames,
            if_neg (by decide), if_pos (by decide), if_neg (by decide)]
          exact resendSecondary_brought _ hresent (hagain _) (hprim.runFrame slaves)
            (hlen slaves) (hcount slaves)
      | succ k =>
          have hfirst := hprim.runFrame (slaves.take (k + 1))
          have ha := hfound htx hfirst hprimary
          obtain ⟨hwkc, hread⟩ := ha.brought (hlen _) (hcount _)
          by_cases hk : k + 1 < slaves.length
          · -- both parts of the ring are reached, one after the other
            simp only [backSecondary, if_pos hk] at hsecondary hagain
            have hb := hfound htx2 (hdummy.runFrame _) hsecondary
            rw [ha.source_eq hfirst, hb.source_eq (hdummy.runFrame _), routeFrames,
              if_neg (by decide), if_pos (by decide), if_pos ⟨rfl, rfl⟩]
            have hwhole : runFrame (slaves.drop (k + 1))
                (runFrame (slaves.take (k + 1)) (primaryFrame port idx)) =
                  runFrame slaves (primaryFrame port idx) := by
              rw [runFrame_append _ _ hframe, List.take_append_drop]
            have hcopied := primaryFrame_copied rfl (by simpa [primaryFrame] using hframe) hread
            refine resendSecondary_brought _ hresent ?_ (hprim.runFrame slaves) (hlen slaves)
              (hcount slaves)
            rw [← hwhole, ← hcopied]
            simpa [primaryFrame] using hagain _
          · -- all slaves are on the primary side
            simp only [backSecondary, if_neg hk] at hsecondary
            have hb := (waitOne_none port.txbuflength le_rfl htx2 hsecondary).1
            have hall : slaves.take (k + 1) = slaves := List.take_of_length_le (by omega)
            rw [hall] at ha hwkc hread hfirst
            rw [ha.source_eq hfirst, if_neg (by omega), routeFrames, if_neg (by decide),
              if_neg (by decide)]
            exact ⟨hwkc, hread⟩

/-- The length field of the frame that is sent. -/
theorem comLength_primaryFrame {port : EcPort} {idx : Nat} (h : ReadyToSend port idx)
    (sent : Bool × Bool) :
    comLength (frameOf (primaryFrame (ecxOutframeRed port idx sent) idx)) =
      comLength (port.txbuf idx) := by
  have hhead := h.head
  simp only [ethHeaderSize] at hhead
  have hbuf : (ecxOutframeRed port idx sent).txbuf idx = setSource (port.txbuf idx) rxPrim := by
    simp [ecxOutframeRed, h.redundant]
  have hlen : (ecxOutframeRed port idx sent).txbuflength = port.txbuflength := by
    simp [ecxOutframeRed, h.redundant]
  simp only [primaryFrame, hbuf, hlen, comLength, ethHeaderSize]
  rw [frameOf_read (by omega), frameOf_read (by omega), setSource_of_le _ _ (by decide),
    setSource_of_le _ _ (by decide)]

/-- The datagrams of the frame that is sent are those that were built. -/
theorem primaryFrame_drop {port : EcPort} {idx : Nat} (h : ReadyToSend port idx)
    (sent : Bool × Bool) :
    (primaryFrame (ecxOutframeRed port idx sent) idx).drop ethHeaderSize =
      (port.txbuf idx).read ethHeaderSize (port.txbuflength idx - ethHeaderSize) := by
  have hhead := h.head
  have hbuf : (ecxOutframeRed port idx sent).txbuf idx = setSource (port.txbuf idx) rxPrim := by
    simp [ecxOutframeRed, h.redundant]
  have hlen : (ecxOutframeRed port idx sent).txbuflength = port.txbuflength := by
    simp [ecxOutframeRed, h.redundant]
  have hsplit : port.txbuflength idx =
      ethHeaderSize + (port.txbuflength idx - ethHeaderSize) := by omega
  calc
    (primaryFrame (ecxOutframeRed port idx sent) idx).drop ethHeaderSize
    _ = (setSource (port.txbuf idx) rxPrim).read ethHeaderSize
        (port.txbuflength idx - ethHeaderSize) := by
      rw [primaryFrame, hbuf, hlen]
      conv_lhs => rw [hsplit]
      rw [Memory.read_add, List.drop_left' (Memory.read_length _ _ _), Nat.zero_add]
    _ = (port.txbuf idx).read ethHeaderSize (port.txbuflength idx - ethHeaderSize) := by
      apply Memory.read_congr
      intro i hi
      simp only [mem_span, ethHeaderSize] at hi
      exact setSource_of_le _ _ (by omega)

/-- The exchange of `ecx_srconfirm` on a ring. -/
theorem ecxSrconfirm_brought {slaves : List RingSlave} (hslaves : slaves ≠ [])
    {cables : Cables} {port : EcPort} {idx : Nat} (hready : ReadyToSend port idx) {a : Attempt}
    (hring : OnRing slaves cables idx a) (attempts : List Attempt) :
    Brought (ecxSrconfirm port idx (a :: attempts)) idx
      (port.txbuflength idx - ethHeaderSize)
      (runFrame slaves (primaryFrame (ecxOutframeRed port idx (true, true)) idx)) := by
  have hred := hready.redundant
  have hprim := sendable_primary hready (true, true)
  have hdummy := sendable_dummy hready (true, true)
  have hlen : (ecxOutframeRed port idx (true, true)).txbuflength = port.txbuflength := by
    simp [ecxOutframeRed, hred]
  have hcounted : ethHeaderSize +
      comLength (frameOf (primaryFrame (ecxOutframeRed port idx (true, true)) idx)) + 2 ≤
        (ecxOutframeRed port idx (true, true)).txbuflength idx := by
    rw [comLength_primaryFrame hready, hlen]
    exact hready.counted
  have hwait := ecxWaitinframeRed_ring hslaves
    (show (ecxOutframeRed port idx (true, true)).redstate = true by simp [ecxOutframeRed, hred])
    (by simp [ecxOutframeRed, hred, ecxOutframe])
    (by simp [ecxOutframeRed, hred, ecxOutframe]) hprim hdummy hcounted
    (hring.primary _ _) (hring.secondary _ _) hring.resent hring.again
  have hanswer : ¬((ecxWaitinframeRed (ecxOutframeRed port idx (true, true)) idx
      (a.rounds (primaryFrame (ecxOutframeRed port idx (true, true)) idx)
        (dummyFrame (ecxOutframeRed port idx (true, true)))) a.again).2 ≤ ecNoFrame ∧
      attempts ≠ []) := by
    have hpos := rxWkc_nonneg
      (fun i => frameOf (runFrame slaves
        (primaryFrame (ecxOutframeRed port idx (true, true)) idx)) (ethHeaderSize + i))
      (comLength (frameOf (runFrame slaves
        (primaryFrame (ecxOutframeRed port idx (true, true)) idx))))
    rintro ⟨hle, -⟩
    rw [hwait.wkc, frameWkc, ecNoFrame] at hle
    omega
  rw [hlen] at hwait
  simp only [ecxSrconfirm, hring.sent, if_neg hanswer]
  exact hwait

/-- With one cable of the ring broken, or none, the exchange of `ecx_srconfirm` brings what
all slaves, in their order, make of the datagrams, with the work counter of all of them. -/
theorem ecxSrconfirm_survives_broken_cable {slaves : List RingSlave} (hslaves : slaves ≠ [])
    {cables : Cables} {port : EcPort} {idx : Nat} (hready : ReadyToSend port idx) {a : Attempt}
    (hring : OnRing slaves cables idx a) (attempts : List Attempt) :
    let n := port.txbuflength idx - ethHeaderSize
    let answer := runAll slaves ((port.txbuf idx).read ethHeaderSize n)
    ((ecxSrconfirm port idx (a :: attempts)).1.stack.rxbuf idx).read 0 n = answer ∧
      (ecxSrconfirm port idx (a :: attempts)).2 =
        rxWkc (frameOf answer) (comLength (port.txbuf idx)) := by
  have hbrought := ecxSrconfirm_brought hslaves hready hring attempts
  have hframe : ethHeaderSize ≤
      (primaryFrame (ecxOutframeRed port idx (true, true)) idx).length := by
    have := (sendable_primary hready (true, true)).head
    omega
  have hanswer : (runFrame slaves
      (primaryFrame (ecxOutframeRed port idx (true, true)) idx)).drop ethHeaderSize =
        runAll slaves ((port.txbuf idx).read ethHeaderSize
          (port.txbuflength idx - ethHeaderSize)) := by
    rw [drop_runFrame slaves hframe, primaryFrame_drop hready]
  refine ⟨hbrought.buffer.trans hanswer, ?_⟩
  rw [hbrought.wkc, frameWkc, (frameOf_congr (take_runFrame slaves hframe)).2.2.1,
    comLength_primaryFrame hready, ← hanswer]
  congr 1
  funext i
  simp [frameOf, List.getElem?_drop]

/-- A slave that adds one to every byte behind the head. -/
def addOne : RingSlave where
  run p := p.take 4 ++ (p.drop 4).map (· + 1)
  length_run p := by simp; omega
  take_run p := by
    by_cases h : 4 ≤ p.length
    · exact List.take_left' (by simp [h])
    · rw [List.drop_of_length_le (by omega)]
      simp

/-- A port with two cards and a frame of index 1. -/
def twoCards : EcPort where
  stack := quietPort.stack
  redstack := quietPort.stack
  redstate := true
  txbuf := fun _ => frameOf frameForOne
  txbuflength := fun _ => 30
  txbuf2 := frameOf frameForOne
  txbuflength2 := 30

/-- The frames on a ring of two slaves with the cable between them broken. -/
def cutAttempt : Attempt where
  sent := (true, true)
  rounds prim sec := [(backPrimary [addOne, addOne] (.broken 1) prim sec,
    backSecondary [addOne, addOne] (.broken 1) prim sec)]
  again := ⟨true, fun frame => [backSecondary [addOne, addOne] (.broken 1) [] frame]⟩

theorem cutAttempt_onRing : OnRing [addOne, addOne] (.broken 1) 1 cutAttempt := by
  refine ⟨rfl, fun _ _ => ?_, fun _ _ => ?_, rfl, fun _ => ?_⟩ <;>
    exact ⟨[], [], rfl, fun _ h => absurd h List.not_mem_nil⟩

/-- Both slaves have added one to both bytes of the work counter. -/
theorem ecxSrconfirm_survives_cut : (ecxSrconfirm twoCards 1 [cutAttempt]).2 = 517 :=
  (ecxSrconfirm_survives_broken_cable (List.cons_ne_nil addOne [addOne])
    (⟨rfl, by decide, by decide, by decide, by decide, by decide, by decide, by decide,
      by decide, by decide⟩ : ReadyToSend twoCards 1) cutAttempt_onRing []).2.trans (by decide)

end RaipalSoem
