import RaipalSoem.SdoUpload
import RaipalSoem.SdoWrite

/-!
# The download of an object

What a slave makes of the requests of `ecx_SDOwrite`: it reads them from its mailbox, collects
the bytes of the object and writes the object when all announced bytes are there. Requests and
replies can get lost, and the slave can refuse a request. Whatever happens, the object is
written as a whole or not at all.
-/

namespace RaipalSoem

open Lib

/-- What a download writes: a single subindex, or with complete access all of them from a
subindex on. -/
structure SdoTarget where
  index : UInt16
  subIndex : UInt8
  complete : Bool
  deriving DecidableEq, Repr

/-- What a call of `ecx_SDOwrite` writes: complete access begins at subindex 0 or 1. -/
def SdoTarget.ofCall (index : UInt16) (subIndex : UInt8) (ca : Bool) : SdoTarget :=
  ⟨index, if ca ∧ 1 < subIndex then 1 else subIndex, ca⟩

/-- A request of a download. -/
inductive DownloadRequest
  | expedited (target : SdoTarget) (data : List UInt8)
  | initiate (target : SdoTarget) (size : Nat) (data : List UInt8)
  | segment (toggle : UInt8) (last : Bool) (data : List UInt8)
  | other
  deriving DecidableEq, Repr

/-- The data of a segment. One of minimum size tells how many of its seven bytes are unused. -/
def segmentData (m : Mailbox) : List UInt8 :=
  if wordAt m 0 = 10 then m.read 9 (7 - ((m 8 >>> 1) &&& 0x07).toNat)
  else m.read 9 ((wordAt m 0).toNat - 3)

/-- The request in the mailbox of a slave. -/
def decodeRequest (m : Mailbox) : DownloadRequest :=
  if m 5 &&& 0x0f = 3 ∧ wordAt m 6 >>> 12 = 2 then
    if m 8 &&& 0xe0 = 0x20 then
      let target : SdoTarget := ⟨wordAt m 9, m 11, m 8 &&& 0x10 != 0⟩
      if m 8 &&& 0x02 ≠ 0 then
        .expedited target (m.read 12 (4 - ((m 8 >>> 2) &&& 0x03).toNat))
      else
        .initiate target (ofLeBytes 4 (m.read 12 4)).toNat (m.read 16 ((wordAt m 0).toNat - 10))
    else if m 8 &&& 0xe0 = 0 then
      .segment (m 8 &&& 0x10) (m 8 &&& 0x01 != 0) (segmentData m)
    else .other
  else .other

/-- A download in progress: what it writes, the announced size, the bytes so far and the toggle
bit of the next segment. -/
structure Download where
  target : SdoTarget
  size : Nat
  got : List UInt8
  toggle : UInt8
  deriving DecidableEq, Repr

/-- A slave that objects can be written to: the download in progress, and what has been
written. -/
structure SdoServer where
  current : Option Download
  written : List (SdoTarget × List UInt8)
  deriving DecidableEq, Repr

namespace SdoServer

/-- Write an object. -/
def commit (s : SdoServer) (target : SdoTarget) (data : List UInt8) : SdoServer :=
  { current := none, written := s.written ++ [(target, data)] }

/-- Break off the download in progress. -/
def abort (s : SdoServer) : SdoServer := { s with current := none }

/-- What the slave does with a request, and the command of its reply unless it refuses. -/
def handle (s : SdoServer) : DownloadRequest → SdoServer × Option UInt8
  | .expedited target data => (s.commit target data, some 0x60)
  | .initiate target size data =>
      if size ≤ data.length then (s.commit target (data.take size), some 0x60)
      else ({ s with current := some ⟨target, size, data, 0⟩ }, some 0x60)
  | .segment toggle last data =>
      match s.current with
      | none => (s, none)
      | some d =>
          if toggle = d.toggle then
            if last then
              if (d.got ++ data).length = d.size then
                (s.commit d.target (d.got ++ data), some (0x20 ||| toggle))
              else (s.abort, none)
            else
              let d := { d with got := d.got ++ data, toggle := d.toggle ^^^ 0x10 }
              ({ s with current := some d }, some (0x20 ||| toggle))
          else (s.abort, none)
  | .other => (s, none)

end SdoServer

/-- A reply with the given CoE service and command, which names the object of the request. -/
def replyTo (m : Mailbox) (service command : UInt8) : Mailbox := fun a =>
  if a = 5 then 0x03 else if a = 7 then service <<< 4 else if a = 8 then command
  else if 9 ≤ a ∧ a ≤ 11 then m a else 0

/-- The reply of a slave: an SDO response, or an abort, which is an SDO request. -/
def sdoReply (m : Mailbox) : Option UInt8 → Mailbox
  | some command => replyTo m 3 command
  | none => replyTo m 2 0x80

/-- What can become of a request to a slave: it is lost, or its reply is, or the slave refuses
it, or the slave handles it and the master gets the reply. -/
inductive Serves (s : SdoServer) (m : Mailbox) : SdoServer → MbxExchange → Prop
  | lost {x : MbxExchange} : ¬x.Answered → Serves s m s x
  | unanswered {x : MbxExchange} : ¬x.Answered → Serves s m (s.handle (decodeRequest m)).1 x
  | refused {x : MbxExchange} : x.mbxIn = sdoReply m none → Serves s m s.abort x
  | answered {x : MbxExchange} : x.Answered →
      x.mbxIn = sdoReply m (s.handle (decodeRequest m)).2 →
      Serves s m (s.handle (decodeRequest m)).1 x

/-- The headers of an SDO request. -/
structure Headed (m : Mailbox) (length : UInt16) (command : UInt8) : Prop where
  mbxType : m 5 &&& 0x0f = 3
  service : wordAt m 6 >>> 12 = 2
  length : wordAt m 0 = length
  command : m 8 = command

theorem SdoWriter.headed {σ : Type*} (e : Endian) (w : SdoWriter σ) (length : UInt16)
    (command : UInt8) : Headed (w.header e length command).mbxOut length command := by
  simp only [SdoWriter.header]
  refine ⟨?_, ?_, ?_, ?_⟩
  · rw [Memory.write_apart _ (Or.inl (by decide)), putWord_apart e _ (Or.inl (by decide))]
    rw [show (5 : Nat) = 4 + 1 from rfl,
      Memory.write_of_mem _ 4 1 ([0x00, ectMbxtCoe + (ecNextMbxCnt w.mbxCnt <<< 4)] : List UInt8)
        (by simp)]
    exact mbxType_count w.mbxCnt (by decide)
  · rw [wordAt_write _ (Or.inl (by decide)), wordAt_putWord]
    decide
  · rw [wordAt_write _ (Or.inl (by decide)), wordAt_putWord_apart e _ (Or.inl (by decide)),
      wordAt_write _ (Or.inl (by decide)), wordAt_putWord_apart e _ (Or.inl (by decide)),
      wordAt_putWord]
  · exact Memory.write_of_mem _ 8 0 [command] (by simp)

/-- What is stored behind the command leaves the headers alone. -/
theorem Headed.write {m : Mailbox} {length : UInt16} {command : UInt8}
    (h : Headed m length command) {off : Nat} (hoff : 9 ≤ off) (vs : List UInt8) :
    Headed (m.write off vs) length command := by
  refine ⟨?_, ?_, ?_, ?_⟩
  · rw [Memory.write_apart _ (by omega)]
    exact h.mbxType
  · rw [wordAt_write _ (by omega)]
    exact h.service
  · rw [wordAt_write _ (by omega)]
    exact h.length
  · rw [Memory.write_apart _ (by omega)]
    exact h.command

theorem segmentCommand_bits (n : Nat) (notLast : Bool) {toggle : UInt8}
    (htoggle : toggle = 0 ∨ toggle = 0x10) :
    (segmentCommand notLast n + toggle) &&& 0xe0 = 0 ∧
    (segmentCommand notLast n + toggle) &&& 0x10 = toggle ∧
    ((segmentCommand notLast n + toggle) &&& 0x01 != 0) = !notLast ∧
    (((segmentCommand notLast n + toggle) >>> 1) &&& 0x07).toNat =
      if notLast then 0 else 7 - n := by
  unfold segmentCommand
  cases notLast with
  | true =>
      simp only [if_true]
      rcases htoggle with rfl | rfl <;> decide
  | false =>
      by_cases hn : n < 7
      · simp only [hn, if_true, Bool.false_eq_true, if_false]
        interval_cases n <;> rcases htoggle with rfl | rfl <;> decide
      · have hzero : 7 - n = 0 := by omega
        simp only [hn, if_false, Bool.false_eq_true, hzero]
        rcases htoggle with rfl | rfl <;> decide

theorem decodeRequest_segment {m : Mailbox} {length : UInt16} {command toggle : UInt8}
    {last : Bool} (h : Headed m length command) (hclass : command &&& 0xe0 = 0)
    (htoggle : command &&& 0x10 = toggle) (hlast : (command &&& 0x01 != 0) = last) :
    decodeRequest m = .segment toggle last (segmentData m) := by
  have hne : ¬command &&& 0xe0 = 0x20 := by
    rw [hclass]
    decide
  simp only [decodeRequest, h.mbxType, h.service, h.command, hclass, htoggle, hlast, and_self,
    if_true, if_neg (show ¬(0 : UInt8) = 0x20 by decide)]

section Requests

variable {σ : Type*} (e : Endian) (w : SdoWriter σ)

/-- The slave reads a segment as it has been sent. -/
theorem decode_segment (notLast : Bool) {toggle : UInt8} {hp : List UInt8}
    (htoggle : toggle = 0 ∨ toggle = 0x10) (hfits : 9 + hp.length ≤ ecMaxMbx + 1)
    (hlong : notLast = true → 7 ≤ hp.length) :
    decodeRequest ((w.header e (segmentLength notLast hp.length)
      (segmentCommand notLast hp.length + toggle)).mbxOut.write 9 hp) =
      .segment toggle (!notLast) hp := by
  obtain ⟨hclass, hbit, hlast, hunused⟩ :=
    segmentCommand_bits hp.length notLast htoggle
  have hheaded := (w.headed e (segmentLength notLast hp.length)
    (segmentCommand notLast hp.length + toggle)).write (le_refl 9) hp
  generalize (w.header e (segmentLength notLast hp.length)
    (segmentCommand notLast hp.length + toggle)).mbxOut = m at hheaded
  have hread := m.read_write 9 hp
  rw [decodeRequest_segment hheaded hclass hbit hlast]
  congr 1
  simp only [segmentData, hheaded.length, hheaded.command, hunused]
  unfold ecMaxMbx at hfits
  unfold segmentLength
  by_cases hshort : (!notLast) = true ∧ hp.length < 7
  · have hcount : 7 - (if notLast = true then 0 else 7 - hp.length) = hp.length := by
      have hnot : notLast = false := by simpa using hshort.1
      rw [if_neg (by simp [hnot])]
      omega
    rw [if_pos hshort, if_pos rfl, hcount]
    exact hread
  · have hseven : 7 ≤ hp.length := by
      cases notLast with
      | true => exact hlong rfl
      | false => simpa using hshort
    have hlength : (UInt16.ofNat (hp.length + 3)).toNat = hp.length + 3 :=
      Nat.mod_eq_of_lt (by omega)
    rw [if_neg hshort]
    by_cases hten : UInt16.ofNat (hp.length + 3) = 10
    · have hsum : hp.length + 3 = 10 := by
        rw [← hlength, hten]
        rfl
      have hcount : 7 - (if notLast = true then 0 else 7 - hp.length) = hp.length := by
        split <;> omega
      rw [if_pos hten, hcount]
      exact hread
    · rw [if_neg hten, hlength, Nat.add_sub_cancel]
      exact hread

/-- The index, the subindex and all that lies behind them. -/
theorem target_fields (index : UInt16) (subIndex : UInt8) :
    wordAt (w.target e index subIndex).mbxOut 9 = index ∧
    (w.target e index subIndex).mbxOut 11 = subIndex := by
  constructor
  · simp only [SdoWriter.target]
    rw [wordAt_write _ (Or.inl (by decide)), wordAt_putWord]
  · exact Memory.write_of_mem (putWord e w.mbxOut 9 index) 11 0 [subIndex] (by simp)

theorem headed_target {length : UInt16} {command : UInt8} (h : Headed w.mbxOut length command)
    (index : UInt16) (subIndex : UInt8) :
    Headed (w.target e index subIndex).mbxOut length command := by
  simp only [SdoWriter.target, putWord_eq]
  exact (h.write (le_refl 9) _).write (by decide) _

theorem expeditedCommand_bits {n : Nat} (hpos : 0 < n) (hsmall : n ≤ 4) :
    let command := ectSdoDownExp ||| (UInt8.ofNat ((4 - n) <<< 2) &&& 0x0c)
    command &&& 0xe0 = 0x20 ∧ command &&& 0x02 ≠ 0 ∧ (command &&& 0x10 != 0) = false ∧
      4 - ((command >>> 2) &&& 0x03).toNat = n := by
  interval_cases n <;> decide

/-- The slave reads a request with all data in it as it has been sent. -/
theorem decode_expedited (index : UInt16) (subIndex : UInt8) {p : List UInt8}
    (hpos : 0 < p.length) (hsmall : p.length ≤ 4) :
    decodeRequest (((w.header e 0x000a
      (ectSdoDownExp ||| (UInt8.ofNat ((4 - p.length) <<< 2) &&& 0x0c))).target e index
        subIndex).mbxOut.write 12 p) = .expedited ⟨index, subIndex, false⟩ p := by
  obtain ⟨hclass, hexpedited, hsingle, hcount⟩ := expeditedCommand_bits hpos hsmall
  generalize ectSdoDownExp ||| (UInt8.ofNat ((4 - p.length) <<< 2) &&& 0x0c) = command
    at hclass hexpedited hsingle hcount ⊢
  have hheaded := headed_target e _ (w.headed e 0x000a command) index subIndex
  obtain ⟨hindex, hsub⟩ := target_fields e (w.header e 0x000a command) index subIndex
  generalize ((w.header e 0x000a command).target e index subIndex).mbxOut = m
    at hheaded hindex hsub
  have hafter := hheaded.write (show 9 ≤ 12 by decide) p
  simp only [decodeRequest, hafter.mbxType, hafter.service, hafter.command, hclass, hsingle,
    hcount, and_self, if_true, if_pos hexpedited, m.read_write 12 p]
  rw [wordAt_write _ (Or.inl (by decide)), Memory.write_apart _ (Or.inl (by decide)), hindex, hsub]

/-- The slave reads an announcement as it has been sent. -/
theorem decode_initiate (ca : Bool) (index : UInt16) (subIndex : UInt8) {psize : Nat}
    (hsize : psize < 2 ^ 32) {vs : List UInt8} (hfits : 16 + vs.length ≤ ecMaxMbx + 1) :
    decodeRequest ((((w.header e (.ofNat (0x0a + vs.length))
      (if ca then ectSdoDownInitCa else ectSdoDownInit)).target e index subIndex).size e
        psize).mbxOut.write 16 vs) = .initiate ⟨index, subIndex, ca⟩ psize vs := by
  obtain ⟨hclass, hinitiate, hcomplete⟩ :
      (if ca then ectSdoDownInitCa else ectSdoDownInit) &&& 0xe0 = 0x20 ∧
      ¬(if ca then ectSdoDownInitCa else ectSdoDownInit) &&& 0x02 ≠ 0 ∧
      ((if ca then ectSdoDownInitCa else ectSdoDownInit) &&& 0x10 != 0) = ca := by
    cases ca <;> decide
  generalize (if ca then ectSdoDownInitCa else ectSdoDownInit) = command
    at hclass hinitiate hcomplete ⊢
  have hheaded := headed_target e _ (w.headed e (.ofNat (0x0a + vs.length)) command) index subIndex
  obtain ⟨hindex, hsub⟩ :=
    target_fields e (w.header e (.ofNat (0x0a + vs.length)) command) index subIndex
  simp only [SdoWriter.size, hostBytes_htoel]
  generalize ((w.header e (.ofNat (0x0a + vs.length)) command).target e index subIndex).mbxOut = m
    at hheaded hindex hsub
  have hsized : (m.write 12 (leBytes 4 (.ofNat 32 psize))).read 12 4 =
      leBytes 4 (.ofNat 32 psize) := m.read_write 12 (leBytes 4 (.ofNat 32 psize))
  have hpsize : (ofLeBytes 4 (leBytes 4 (.ofNat 32 psize))).toNat = psize := by
    rw [ofLeBytes_leBytes]
    exact Nat.mod_eq_of_lt hsize
  have hafter := (hheaded.write (show 9 ≤ 12 by decide)
    (leBytes 4 (.ofNat 32 psize))).write (show 9 ≤ 16 by decide) vs
  have hlength : (UInt16.ofNat (0x0a + vs.length)).toNat - 10 = vs.length := by
    unfold ecMaxMbx at hfits
    have hsum : (UInt16.ofNat (0x0a + vs.length)).toNat = 0x0a + vs.length :=
      Nat.mod_eq_of_lt (by omega)
    omega
  simp only [decodeRequest, hafter.mbxType, hafter.service, hafter.command, hafter.length, hclass,
    hcomplete, hlength, and_self, if_true, if_neg hinitiate, Memory.read_write _ 16 vs]
  rw [wordAt_write _ (Or.inl (by decide)), wordAt_write _ (Or.inl (by decide)), hindex,
    Memory.write_apart _ (Or.inl (by decide)), Memory.write_apart _ (Or.inl (by decide)), hsub,
    Memory.read_write_apart _ (Or.inl (by decide)), hsized, hpsize]

end Requests

theorem isSdoResponse_reply (e : Endian) (m : Mailbox) (r : Option UInt8) :
    isSdoResponse e (sdoReply m r) ↔ r.isSome := by
  rw [isSdoResponse_iff]
  cases r with
  | none =>
      have hread : (sdoReply m none).read 6 2 = [0x00, 0x20] := rfl
      simp only [isCoeResponse, hread, Option.isSome_none, Bool.false_eq_true, iff_false, not_and]
      intro _
      decide
  | some command =>
      have hread : (sdoReply m (some command)).read 6 2 = [0x00, 0x30] := rfl
      have htype : sdoReply m (some command) 5 = 0x03 := rfl
      simp only [isCoeResponse, hread, htype, Option.isSome_some, iff_true]
      decide

section Exchange

variable {σ : Type*} (step : σ → Mailbox → σ × MbxExchange) (w : SdoWriter σ)

theorem SdoWriter.exchange_answered (h : (step w.slave w.mbxOut).2.Answered) :
    w.exchange step =
      ({ w with
          slave := (step w.slave w.mbxOut).1, wkc := (step w.slave w.mbxOut).2.receiveWkc },
        some (step w.slave w.mbxOut).2.mbxIn) := by
  simp only [exchange, if_pos h.1, if_pos h.2]

/-- An exchange ends with a reply or with a work counter that tells of none. -/
theorem SdoWriter.exchange_cases :
    (∃ wkc ≤ 0, w.exchange step =
      ({ w with slave := (step w.slave w.mbxOut).1, wkc := wkc }, none)) ∨
    ((step w.slave w.mbxOut).2.Answered ∧ w.exchange step =
      ({ w with
          slave := (step w.slave w.mbxOut).1, wkc := (step w.slave w.mbxOut).2.receiveWkc },
        some (step w.slave w.mbxOut).2.mbxIn)) := by
  by_cases hx : (step w.slave w.mbxOut).2.Answered
  · exact Or.inr ⟨hx, exchange_answered step w hx⟩
  · apply Or.inl
    by_cases hsend : 0 < (step w.slave w.mbxOut).2.sendWkc
    · have hreceive : ¬0 < (step w.slave w.mbxOut).2.receiveWkc := fun hr => hx ⟨hsend, hr⟩
      refine ⟨(step w.slave w.mbxOut).2.receiveWkc, not_lt.mp hreceive, ?_⟩
      simp only [exchange, if_pos hsend, if_neg hreceive]
    · refine ⟨(step w.slave w.mbxOut).2.sendWkc, not_lt.mp hsend, ?_⟩
      simp only [exchange, if_neg hsend]

end Exchange

/-- The object has not been written, or it has been written as a whole. -/
def AllOrNothing (log : List (SdoTarget × List UInt8)) (object : SdoTarget × List UInt8)
    (s : SdoServer) : Prop :=
  s.written = log ∨ s.written = log ++ [object]

/-- Nothing has been written yet, and a download in progress belongs to the object and has
got some of the pieces that have been sent. -/
structure Receiving (log : List (SdoTarget × List UInt8)) (target : SdoTarget) (size : Nat)
    (sent : List UInt8) (s : SdoServer) : Prop where
  written : s.written = log
  current : ∀ d, s.current = some d → d.target = target ∧ d.size = size ∧ d.got.Sublist sent

section Lossy

variable {log : List (SdoTarget × List UInt8)} {target : SdoTarget} {size : Nat}
  {sent vs : List UInt8} {s s' : SdoServer} {m : Mailbox} {x : MbxExchange}
  {toggle : UInt8}

theorem Receiving.abort (h : Receiving log target size sent s) :
    Receiving log target size sent s.abort :=
  ⟨h.written, fun _ hd => by simp [SdoServer.abort] at hd⟩

theorem Receiving.mono (h : Receiving log target size sent s) (vs : List UInt8) :
    Receiving log target size (sent ++ vs) s where
  written := h.written
  current d hd := by
    obtain ⟨ht, hz, hg⟩ := h.current d hd
    exact ⟨ht, hz, hg.trans (List.sublist_append_left sent vs)⟩

/-- A segment that is not the last one extends what has been sent, whether it arrives or not. -/
theorem Receiving.segment (h : Receiving log target size sent s)
    (hm : decodeRequest m = .segment toggle false vs) (hserves : Serves s m s' x) :
    Receiving log target size (sent ++ vs) s' := by
  have hhandled : Receiving log target size (sent ++ vs) (s.handle (decodeRequest m)).1 := by
    rw [hm]
    cases hcurrent : s.current with
    | none =>
        simp only [SdoServer.handle, hcurrent]
        exact h.mono vs
    | some d =>
        obtain ⟨ht, hz, hg⟩ := h.current d hcurrent
        simp only [SdoServer.handle, hcurrent, Bool.false_eq_true, if_false]
        split
        · refine ⟨h.written, fun d' hd' => ?_⟩
          cases hd'
          exact ⟨ht, hz, hg.append_right vs⟩
        · exact (h.abort).mono vs
  cases hserves with
  | lost => exact h.mono vs
  | unanswered => exact hhandled
  | refused => exact h.abort.mono vs
  | answered => exact hhandled

/-- With the last segment the object is written as a whole, or not at all: pieces whose lengths
add up to the announced size leave no room for one that is missing. -/
theorem Receiving.last {p : List UInt8} (h : Receiving log target p.length sent s)
    (hp : sent ++ vs = p) (hm : decodeRequest m = .segment toggle true vs)
    (hserves : Serves s m s' x) :
    AllOrNothing log (target, p) s' ∧
      (∀ e, x.Answered → isSdoResponse e x.mbxIn → s'.written = log ++ [(target, p)]) := by
  have hhandled : AllOrNothing log (target, p) (s.handle (decodeRequest m)).1 ∧
      ((s.handle (decodeRequest m)).2.isSome →
        (s.handle (decodeRequest m)).1.written = log ++ [(target, p)]) := by
    rw [hm]
    cases hcurrent : s.current with
    | none =>
        simp only [SdoServer.handle, hcurrent]
        exact ⟨Or.inl h.written, fun hsome => by simp at hsome⟩
    | some d =>
        obtain ⟨ht, hz, hg⟩ := h.current d hcurrent
        simp only [SdoServer.handle, hcurrent, if_true]
        split
        · split
          · next hlength =>
              have hall : d.got ++ vs = p := by
                rw [← hp]
                apply (hg.append_right vs).eq_of_length
                rw [hlength, hz, hp]
              have hwritten : (s.commit d.target (d.got ++ vs)).written =
                  log ++ [(target, p)] := by
                rw [hall, ht, SdoServer.commit, h.written]
              exact ⟨Or.inr hwritten, fun _ => hwritten⟩
          · exact ⟨Or.inl h.abort.written, fun hsome => by simp at hsome⟩
        · exact ⟨Or.inl h.abort.written, fun hsome => by simp at hsome⟩
  cases hserves with
  | lost hx => exact ⟨Or.inl h.written, fun _ ha => absurd ha hx⟩
  | unanswered hx => exact ⟨hhandled.1, fun _ ha => absurd ha hx⟩
  | refused hin =>
      refine ⟨Or.inl h.abort.written, fun e _ hresponse => ?_⟩
      rw [hin, isSdoResponse_reply] at hresponse
      simp at hresponse
  | answered _ hin =>
      refine ⟨hhandled.1, fun e _ hresponse => hhandled.2 ?_⟩
      rwa [hin, isSdoResponse_reply] at hresponse

end Lossy

section First

variable {target : SdoTarget} {s s' : SdoServer} {m : Mailbox} {x : MbxExchange}

/-- A request that writes the object at once. -/
theorem Serves.commit (hserves : Serves s m s' x) (target : SdoTarget) (p : List UInt8)
    (hm : s.handle (decodeRequest m) = (s.commit target p, some 0x60)) :
    AllOrNothing s.written (target, p) s' ∧
      (∀ e, x.Answered → isSdoResponse e x.mbxIn →
        s'.written = s.written ++ [(target, p)]) := by
  cases hserves with
  | lost hx => exact ⟨Or.inl rfl, fun _ ha => absurd ha hx⟩
  | unanswered hx =>
      rw [hm]
      exact ⟨Or.inr rfl, fun _ ha => absurd ha hx⟩
  | refused hin =>
      refine ⟨Or.inl rfl, fun e _ hresponse => ?_⟩
      rw [hin, isSdoResponse_reply] at hresponse
      simp at hresponse
  | answered =>
      rw [hm]
      exact ⟨Or.inr rfl, fun _ _ _ => rfl⟩

/-- A request that announces more bytes than it carries. -/
theorem Serves.initiate {size : Nat} {vs : List UInt8} (hserves : Serves s m s' x)
    (hm : decodeRequest m = .initiate target size vs) (hmore : vs.length < size) :
    s'.written = s.written ∧ (∀ e, x.Answered → isSdoResponse e x.mbxIn →
      Receiving s.written target size vs s') := by
  have hhandle : s.handle (decodeRequest m) =
      ({ s with current := some ⟨target, size, vs, 0⟩ }, some 0x60) := by
    rw [hm]
    exact if_neg (not_le.mpr hmore)
  cases hserves with
  | lost hx => exact ⟨rfl, fun _ ha => absurd ha hx⟩
  | unanswered hx =>
      rw [hhandle]
      exact ⟨rfl, fun _ ha => absurd ha hx⟩
  | refused hin =>
      refine ⟨rfl, fun e _ hresponse => ?_⟩
      rw [hin, isSdoResponse_reply] at hresponse
      simp at hresponse
  | answered =>
      rw [hhandle]
      refine ⟨rfl, fun _ _ _ => ⟨rfl, fun d hd => ?_⟩⟩
      cases hd
      exact ⟨rfl, rfl, List.Sublist.refl vs⟩

end First

section LossyRun

variable {σ : Type*} (e : Endian) {step : σ → Mailbox → σ × MbxExchange} {view : σ → SdoServer}
  (hstep : ∀ s m, Serves (view s) m (view (step s m).1) (step s m).2)
  {log : List (SdoTarget × List UInt8)} {target : SdoTarget} (index : UInt16)
  (subIndex : UInt8) {toggle : UInt8} {w : SdoWriter σ}

/-- The writer of a segment, with the segment in its mailbox buffer. -/
def SdoWriter.withSegment (w : SdoWriter σ) (toggle : UInt8) (notLast : Bool) (hp : List UInt8) :
    SdoWriter σ :=
  let w := w.header e (segmentLength notLast hp.length) (segmentCommand notLast hp.length + toggle)
  { w with mbxOut := w.mbxOut.write 9 hp }

theorem sendSegment_eq (step : σ → Mailbox → σ × MbxExchange) (toggle : UInt8) (w : SdoWriter σ)
    (notLast : Bool) {hp : List UInt8} (hfits : 9 + hp.length ≤ ecMaxMbx + 1) :
    sendSegment e step index subIndex toggle w notLast hp =
      some (match (w.withSegment e toggle notLast hp).exchange step with
        | (w, none) => (w, notLast)
        | (w, some mbxIn) =>
            if isSdoResponse e mbxIn ∧ mbxCommand mbxIn &&& 0xe0 = 0x20 then (w, notLast)
            else (w.unexpected e index subIndex mbxIn, false)) := by
  simp only [sendSegment, SdoWriter.copyData, if_pos hfits, Option.map_some]
  rfl

include hstep in
theorem sendSegment_more {size : Nat} {sent : List UInt8} (hp : List UInt8)
    (h : Receiving log target size sent (view w.slave))
    (htoggle : toggle = 0 ∨ toggle = 0x10) (hfits : 9 + hp.length ≤ ecMaxMbx + 1)
    (hlong : 7 ≤ hp.length) :
    ∃ w' more, sendSegment e step index subIndex toggle w true hp = some (w', more) ∧
      Receiving log target size (sent ++ hp) (view w'.slave) ∧
      (more = false → w'.wkc = 0) := by
  have hm := decode_segment e w true htoggle hfits fun _ => hlong
  have hrest := h.segment hm (hstep w.slave _)
  rw [sendSegment_eq e index subIndex step toggle w true hfits]
  obtain ⟨wkc, hwkc, hexchange⟩ | ⟨hx, hexchange⟩ :=
    SdoWriter.exchange_cases step (w.withSegment e toggle true hp)
  · rw [hexchange]
    exact ⟨_, _, rfl, hrest, fun hmore => by simp at hmore⟩
  · rw [hexchange]
    dsimp only
    split
    · exact ⟨_, _, rfl, hrest, fun hmore => by simp at hmore⟩
    · exact ⟨_, _, rfl, hrest, fun _ => rfl⟩

include hstep in
theorem sendSegment_last {p sent hp : List UInt8}
    (h : Receiving log target p.length sent (view w.slave)) (hp' : sent ++ hp = p)
    (htoggle : toggle = 0 ∨ toggle = 0x10) (hfits : 9 + hp.length ≤ ecMaxMbx + 1) :
    ∃ w' more, sendSegment e step index subIndex toggle w false hp = some (w', more) ∧
      AllOrNothing log (target, p) (view w'.slave) ∧
      (0 < w'.wkc → (view w'.slave).written = log ++ [(target, p)]) := by
  have hm := decode_segment e w false htoggle hfits fun hf => by simp at hf
  obtain ⟨hall, hanswered⟩ := h.last hp' hm (hstep w.slave _)
  rw [sendSegment_eq e index subIndex step toggle w false hfits]
  obtain ⟨wkc, hwkc, hexchange⟩ | ⟨hx, hexchange⟩ :=
    SdoWriter.exchange_cases step (w.withSegment e toggle false hp)
  · rw [hexchange]
    exact ⟨_, _, rfl, hall, fun hpos => absurd hpos (not_lt.mpr hwkc)⟩
  · rw [hexchange]
    dsimp only
    split
    · next hresponse => exact ⟨_, _, rfl, hall, fun _ => hanswered e hx hresponse.1⟩
    · exact ⟨_, _, rfl, hall, fun hwkc => absurd hwkc (lt_irrefl 0)⟩

include hstep in
/-- The loop over the segments: the induction is on the bytes that are left. -/
theorem downloadSegments_allOrNothing {maxdata : Nat} (hroom : 16 + maxdata ≤ ecMaxMbx + 1)
    {p sent hp : List UInt8} (h : Receiving log target p.length sent (view w.slave))
    (hp' : sent ++ hp = p) (htoggle : toggle = 0 ∨ toggle = 0x10) :
    ∃ w', downloadSegments e step index subIndex maxdata toggle w hp = some w' ∧
      AllOrNothing log (target, p) (view w'.slave) ∧
      (0 < w'.wkc → (view w'.slave).written = log ++ [(target, p)]) := by
  induction hleft : hp.length using Nat.strong_induction_on generalizing hp sent toggle w with
  | _ left ih =>
      rw [downloadSegments]
      by_cases hmore : maxdata + 7 < hp.length
      · have htake : (hp.take (maxdata + 7)).length = maxdata + 7 := by
          rw [List.length_take]
          omega
        obtain ⟨w', more, hsend, hreceiving, hwkc⟩ := sendSegment_more e hstep index subIndex
          (hp.take (maxdata + 7)) h htoggle (by omega) (by omega)
        rw [if_pos hmore, hsend]
        cases more with
        | true =>
            have htoggle' : toggle ^^^ 0x10 = 0 ∨ toggle ^^^ 0x10 = 0x10 := by
              rcases htoggle with rfl | rfl <;> decide
            exact ih (hp.drop (maxdata + 7)).length (by rw [List.length_drop]; omega) hreceiving
              (by rw [List.append_assoc, List.take_append_drop, hp']) htoggle' rfl
        | false =>
            refine ⟨w', rfl, Or.inl hreceiving.written, fun hpos => ?_⟩
            rw [hwkc rfl] at hpos
            exact absurd hpos (lt_irrefl 0)
      · obtain ⟨w', more, hsend, hresult⟩ := sendSegment_last e hstep index subIndex h hp' htoggle
          (by omega)
        rw [if_neg hmore, hsend]
        exact ⟨w', rfl, hresult⟩

include hstep in
theorem expeditedDownload_allOrNothing {p : List UInt8} (hpos : 0 < p.length)
    (hsmall : p.length ≤ 4) :
    ∃ w', expeditedDownload e step index subIndex w p = some w' ∧
      AllOrNothing (view w.slave).written (⟨index, subIndex, false⟩, p) (view w'.slave) ∧
      (0 < w'.wkc →
        (view w'.slave).written = (view w.slave).written ++ [(⟨index, subIndex, false⟩, p)]) := by
  have hfits : 12 + p.length ≤ ecMaxMbx + 1 := by
    unfold ecMaxMbx
    omega
  simp only [expeditedDownload, SdoWriter.copyData, if_pos hfits, Option.map_some]
  generalize hw : (w.header e 0x000a (ectSdoDownExp |||
    (UInt8.ofNat ((4 - p.length) <<< 2) &&& 0x0c))).target e index subIndex = w₁
  have hslave : w₁.slave = w.slave := by rw [← hw]; rfl
  have hm := decode_expedited e w index subIndex hpos hsmall
  rw [hw] at hm
  obtain ⟨hall, hanswered⟩ := (hstep w₁.slave (w₁.mbxOut.write 12 p)).commit ⟨index, subIndex, false⟩ p
    (by rw [hm]; rfl)
  rw [← hslave]
  obtain ⟨wkc, hwkc, hexchange⟩ | ⟨hx, hexchange⟩ :=
    SdoWriter.exchange_cases step { w₁ with mbxOut := w₁.mbxOut.write 12 p }
  · rw [hexchange]
    exact ⟨_, rfl, hall, fun hwkc' => absurd hwkc' (not_lt.mpr hwkc)⟩
  · rw [hexchange]
    dsimp only
    split
    · next hexpected => exact ⟨_, rfl, hall, fun _ => hanswered e hx hexpected.1⟩
    · exact ⟨_, rfl, hall, fun hwkc => absurd hwkc (lt_irrefl 0)⟩

include hstep in
theorem normalDownload_allOrNothing {maxdata : Nat} (hroom : 16 + maxdata ≤ ecMaxMbx + 1) (ca : Bool)
    {p : List UInt8} (hsize : p.length < 2 ^ 31) :
    ∃ w', normalDownload e step index subIndex maxdata ca w p = some w' ∧
      AllOrNothing (view w.slave).written (.ofCall index subIndex ca, p) (view w'.slave) ∧
      (0 < w'.wkc → (view w'.slave).written = (view w.slave).written ++
        [(.ofCall index subIndex ca, p)]) := by
  unfold SdoTarget.ofCall
  generalize hsub : (if ca ∧ 1 < subIndex then 1 else subIndex) = sub
  have hframe : (if (maxdata : Int) < p.length then (maxdata : Int) else p.length) =
      (min maxdata p.length : Nat) := by
    split <;> omega
  have hnonneg : ¬((min maxdata p.length : Nat) : Int) < 0 := by omega
  have htake : (p.take (min maxdata p.length)).length = min maxdata p.length := by
    rw [List.length_take]
    omega
  have hfits : 16 + (p.take (min maxdata p.length)).length ≤ ecMaxMbx + 1 := by omega
  have hm := decode_initiate e w ca index sub (show p.length < 2 ^ 32 by omega) hfits
  rw [htake] at hm
  simp only [normalDownload, hframe, if_neg hnonneg, Int.toNat_natCast, hsub, SdoWriter.copyData,
    if_pos hfits, Option.bind_some]
  generalize hw : ((w.header e (.ofNat (0x0a + min maxdata p.length))
    (if ca then ectSdoDownInitCa else ectSdoDownInit)).target e index sub).size e p.length = w₁
    at hm ⊢
  have hslave : w₁.slave = w.slave := by rw [← hw]; rfl
  generalize w₁.mbxOut.write 16 (p.take (min maxdata p.length)) = mbx at hm ⊢
  rw [← hslave]
  have hserves := hstep w₁.slave mbx
  by_cases hmore : maxdata < p.length
  · have hmin : min maxdata p.length = maxdata := by omega
    rw [hmin] at hm
    obtain ⟨hkept, hreceiving⟩ := hserves.initiate hm (by rw [List.length_take]; omega)
    simp only [if_pos (Int.ofNat_lt.mpr hmore), hmin]
    obtain ⟨wkc, hwkc, hexchange⟩ | ⟨hx, hexchange⟩ :=
      SdoWriter.exchange_cases step { w₁ with mbxOut := mbx }
    · rw [hexchange]
      exact ⟨_, rfl, Or.inl hkept, fun hwkc' => absurd hwkc' (not_lt.mpr hwkc)⟩
    · rw [hexchange]
      dsimp only
      split
      · next hexpected =>
          exact downloadSegments_allOrNothing e hstep index subIndex hroom
            (hreceiving e hx hexpected.1) (List.take_append_drop maxdata p) (Or.inl rfl)
      · exact ⟨_, rfl, Or.inl hkept, fun hwkc => absurd hwkc (lt_irrefl 0)⟩
  · have hmin : min maxdata p.length = p.length := by omega
    rw [hmin, List.take_length] at hm
    obtain ⟨hall, hanswered⟩ := hserves.commit ⟨index, sub, ca⟩ p (by
      rw [hm]
      simp [SdoServer.handle])
    simp only [if_neg (show ¬(maxdata : Int) < p.length by omega)]
    obtain ⟨wkc, hwkc, hexchange⟩ | ⟨hx, hexchange⟩ :=
      SdoWriter.exchange_cases step { w₁ with mbxOut := mbx }
    · rw [hexchange]
      exact ⟨_, rfl, hall, fun hwkc' => absurd hwkc' (not_lt.mpr hwkc)⟩
    · rw [hexchange]
      dsimp only
      split
      · next hexpected => exact ⟨_, rfl, hall, fun _ => hanswered e hx hexpected.1⟩
      · exact ⟨_, rfl, hall, fun hwkc => absurd hwkc (lt_irrefl 0)⟩

end LossyRun

namespace SdoServer

/-- A slave that every request reaches, and the replies of which all arrive. -/
def serve (s : SdoServer) (m : Mailbox) : SdoServer × MbxExchange :=
  ((s.handle (decodeRequest m)).1, ⟨1, 1, sdoReply m (s.handle (decodeRequest m)).2⟩)

/-- A slave that misses every other request. -/
def serveEveryOther (s : SdoServer × Bool) (m : Mailbox) : (SdoServer × Bool) × MbxExchange :=
  if s.2 then ((s.1, false), ⟨1, 0, fun _ => 0⟩) else (((s.1.serve m).1, true), (s.1.serve m).2)

theorem serve_serves (s : SdoServer) (m : Mailbox) : Serves s m (s.serve m).1 (s.serve m).2 :=
  Serves.answered ⟨one_pos, one_pos⟩ rfl

theorem serveEveryOther_serves (s : SdoServer × Bool) (m : Mailbox) :
    Serves s.1 m (serveEveryOther s m).1.1 (serveEveryOther s m).2 := by
  obtain ⟨s, missed⟩ := s
  cases missed with
  | true => exact Serves.lost fun h => absurd h.2 (lt_irrefl 0)
  | false => exact serve_serves s m

end SdoServer

theorem expected_reply {σ : Type*} (e : Endian) (w : SdoWriter σ) (command : UInt8) :
    w.Expected e (sdoReply w.mbxOut (some command)) :=
  ⟨(isSdoResponse_reply e w.mbxOut (some command)).mpr rfl, rfl, rfl⟩

section Fair

variable {σ : Type*} (e : Endian) {step : σ → Mailbox → σ × MbxExchange} {view : σ → SdoServer}

/-- Every request reaches the slave, and every reply the master. -/
structure Faithful (step : σ → Mailbox → σ × MbxExchange) (view : σ → SdoServer) : Prop where
  answered : ∀ s m, (step s m).2.Answered
  mbxIn : ∀ s m, (step s m).2.mbxIn = sdoReply m ((view s).handle (decodeRequest m)).2
  slave : ∀ s m, view (step s m).1 = ((view s).handle (decodeRequest m)).1

variable (hstep : Faithful step view) {p : List UInt8} {target : SdoTarget} (index : UInt16)
  (subIndex : UInt8) {toggle : UInt8} {w : SdoWriter σ}

include hstep

theorem Faithful.exchange (w : SdoWriter σ) :
    ∃ wkc, 0 < wkc ∧ w.exchange step = ({ w with slave := (step w.slave w.mbxOut).1, wkc := wkc },
      some (sdoReply w.mbxOut ((view w.slave).handle (decodeRequest w.mbxOut)).2)) := by
  refine ⟨_, (hstep.answered w.slave w.mbxOut).2, ?_⟩
  rw [SdoWriter.exchange_answered step w (hstep.answered w.slave w.mbxOut), hstep.mbxIn]

/-- A segment that is accepted extends the download. -/
theorem Faithful.sendSegment (notLast : Bool) {size : Nat} {sent : List UInt8} (hp : List UInt8)
    (h : (view w.slave).current = some ⟨target, size, sent, toggle⟩)
    (htoggle : toggle = 0 ∨ toggle = 0x10) (hfits : 9 + hp.length ≤ ecMaxMbx + 1)
    (hlong : notLast = true → 7 ≤ hp.length) (hlast : notLast = false → (sent ++ hp).length = size) :
    ∃ w', sendSegment e step index subIndex toggle w notLast hp = some (w', notLast) ∧
      0 < w'.wkc ∧ (notLast = true → (view w'.slave).current =
        some ⟨target, size, sent ++ hp, toggle ^^^ 0x10⟩) := by
  have hm := decode_segment e w notLast htoggle hfits hlong
  have hreply : (0x20 ||| toggle) &&& 0xe0 = 0x20 := by
    rcases htoggle with rfl | rfl <;> decide
  obtain ⟨wkc, hwkc, hexchange⟩ := hstep.exchange (w.withSegment e toggle notLast hp)
  have hslave : (w.withSegment e toggle notLast hp).slave = w.slave := rfl
  have haccepted : ((view w.slave).handle (.segment toggle (!notLast) hp)).2 =
        some (0x20 ||| toggle) ∧
      (notLast = true → ((view w.slave).handle (.segment toggle (!notLast) hp)).1.current =
        some ⟨target, size, sent ++ hp, toggle ^^^ 0x10⟩) := by
    cases notLast with
    | true => simp [SdoServer.handle, h]
    | false => simp [SdoServer.handle, h, ← hlast rfl]
  have hview := hstep.slave w.slave (w.withSegment e toggle notLast hp).mbxOut
  rw [sendSegment_eq e index subIndex step toggle w notLast hfits, hexchange, hslave]
  change decodeRequest (w.withSegment e toggle notLast hp).mbxOut = _ at hm
  rw [hm] at hview ⊢
  have hok : isSdoResponse e (sdoReply (w.withSegment e toggle notLast hp).mbxOut
        (some (0x20 ||| toggle))) ∧
      mbxCommand (sdoReply (w.withSegment e toggle notLast hp).mbxOut
        (some (0x20 ||| toggle))) &&& 0xe0 = 0x20 :=
    ⟨(isSdoResponse_reply e _ _).mpr rfl, hreply⟩
  rw [haccepted.1]
  refine ⟨_, congrArg some (if_pos hok), hwkc, fun hmore => ?_⟩
  change (view (step w.slave (w.withSegment e toggle notLast hp).mbxOut).1).current = _
  rw [hview]
  exact haccepted.2 hmore

theorem Faithful.downloadSegments {maxdata : Nat} (hroom : 16 + maxdata ≤ ecMaxMbx + 1)
    {sent hp : List UInt8}
    (h : (view w.slave).current = some ⟨target, p.length, sent, toggle⟩)
    (hp' : sent ++ hp = p) (htoggle : toggle = 0 ∨ toggle = 0x10) :
    ∃ w', downloadSegments e step index subIndex maxdata toggle w hp = some w' ∧ 0 < w'.wkc := by
  induction hleft : hp.length using Nat.strong_induction_on generalizing hp sent toggle w with
  | _ left ih =>
      rw [RaipalSoem.downloadSegments]
      by_cases hmore : maxdata + 7 < hp.length
      · have htake : (hp.take (maxdata + 7)).length = maxdata + 7 := by
          rw [List.length_take]
          omega
        obtain ⟨w', hsend, -, hcurrent⟩ := hstep.sendSegment e index subIndex true
          (hp.take (maxdata + 7)) h htoggle (by omega) (fun _ => by omega) (fun hf => by simp at hf)
        have htoggle' : toggle ^^^ 0x10 = 0 ∨ toggle ^^^ 0x10 = 0x10 := by
          rcases htoggle with rfl | rfl <;> decide
        rw [if_pos hmore, hsend]
        exact ih (hp.drop (maxdata + 7)).length (by rw [List.length_drop]; omega) (hcurrent rfl)
          (by rw [List.append_assoc, List.take_append_drop, hp']) htoggle' rfl
      · obtain ⟨w', hsend, hwkc, -⟩ := hstep.sendSegment e index subIndex false hp h htoggle
          (by omega) (fun hf => by simp at hf) (fun _ => by rw [hp'])
        rw [if_neg hmore, hsend]
        exact ⟨w', rfl, hwkc⟩

theorem Faithful.serves (s : σ) (m : Mailbox) : Serves (view s) m (view (step s m).1) (step s m).2 := by
  rw [hstep.slave]
  exact Serves.answered (hstep.answered s m) (hstep.mbxIn s m)

theorem Faithful.expedited (hpos : 0 < p.length) (hsmall : p.length ≤ 4) :
    ∃ w', expeditedDownload e step index subIndex w p = some w' ∧ 0 < w'.wkc := by
  have hfits : 12 + p.length ≤ ecMaxMbx + 1 := by
    unfold ecMaxMbx
    omega
  have hm := decode_expedited e w index subIndex hpos hsmall
  simp only [expeditedDownload, SdoWriter.copyData, if_pos hfits, Option.map_some]
  generalize (w.header e 0x000a (ectSdoDownExp |||
    (UInt8.ofNat ((4 - p.length) <<< 2) &&& 0x0c))).target e index subIndex = w₁ at hm ⊢
  obtain ⟨wkc, hwkc, hexchange⟩ := hstep.exchange { w₁ with mbxOut := w₁.mbxOut.write 12 p }
  dsimp only at hexchange
  rw [hm] at hexchange
  rw [hexchange]
  exact ⟨_, congrArg some (if_pos (expected_reply e
    { w₁ with mbxOut := w₁.mbxOut.write 12 p } 0x60)), hwkc⟩

theorem Faithful.normal {maxdata : Nat} (hroom : 16 + maxdata ≤ ecMaxMbx + 1) (ca : Bool)
    (hsize : p.length < 2 ^ 31) :
    ∃ w', normalDownload e step index subIndex maxdata ca w p = some w' ∧ 0 < w'.wkc := by
  generalize hsub : (if ca ∧ 1 < subIndex then 1 else subIndex) = sub
  have hframe : (if (maxdata : Int) < p.length then (maxdata : Int) else p.length) =
      (min maxdata p.length : Nat) := by
    split <;> omega
  have hnonneg : ¬((min maxdata p.length : Nat) : Int) < 0 := by omega
  have htake : (p.take (min maxdata p.length)).length = min maxdata p.length := by
    rw [List.length_take]
    omega
  have hfits : 16 + (p.take (min maxdata p.length)).length ≤ ecMaxMbx + 1 := by omega
  have hm := decode_initiate e w ca index sub (show p.length < 2 ^ 32 by omega) hfits
  rw [htake] at hm
  simp only [normalDownload, hframe, if_neg hnonneg, Int.toNat_natCast, hsub, SdoWriter.copyData,
    if_pos hfits, Option.bind_some]
  generalize ((w.header e (.ofNat (0x0a + min maxdata p.length))
    (if ca then ectSdoDownInitCa else ectSdoDownInit)).target e index sub).size e p.length = w₁
    at hm ⊢
  obtain ⟨wkc, hwkc, hexchange⟩ := hstep.exchange
    { w₁ with mbxOut := w₁.mbxOut.write 16 (p.take (min maxdata p.length)) }
  have hview := hstep.slave w₁.slave (w₁.mbxOut.write 16 (p.take (min maxdata p.length)))
  dsimp only at hexchange
  rw [hm] at hexchange hview
  have hreply : ((view w₁.slave).handle
      (.initiate ⟨index, sub, ca⟩ p.length (p.take (min maxdata p.length)))).2 = some 0x60 := by
    simp only [SdoServer.handle]
    split <;> rfl
  rw [hreply] at hexchange
  rw [hexchange]
  have hexpected := expected_reply e
    { w₁ with mbxOut := w₁.mbxOut.write 16 (p.take (min maxdata p.length)) } 0x60
  by_cases hmore : maxdata < p.length
  · have hmin : min maxdata p.length = maxdata := by omega
    have hcurrent : (view (step w₁.slave (w₁.mbxOut.write 16
        (p.take (min maxdata p.length)))).1).current =
        some ⟨⟨index, sub, ca⟩, p.length, p.take maxdata, 0⟩ := by
      have hshort : ¬p.length ≤ (p.take maxdata).length := by
        rw [List.length_take]
        omega
      rw [hview, hmin]
      simp only [SdoServer.handle, if_neg hshort]
    rw [hmin] at hcurrent hexpected
    simp only [if_pos (Int.ofNat_lt.mpr hmore), hmin]
    obtain ⟨w', hw', hpos⟩ := hstep.downloadSegments e index subIndex hroom
      (w := { w₁ with
        slave := (step w₁.slave (w₁.mbxOut.write 16 (p.take maxdata))).1, wkc := wkc,
        mbxOut := w₁.mbxOut.write 16 (p.take maxdata) })
      hcurrent (List.take_append_drop maxdata p) (Or.inl rfl)
    exact ⟨w', (if_pos hexpected).trans hw', hpos⟩
  · exact ⟨_, (if_pos hexpected).trans (if_neg (by omega)), hwkc⟩

end Fair

theorem SdoServer.serve_faithful : Faithful SdoServer.serve id :=
  ⟨fun _ _ => ⟨one_pos, one_pos⟩, fun _ _ => rfl, fun _ _ => rfl⟩

end RaipalSoem
