import RaipalSoem.EoeTransfer

/-!
# Frames over a mailbox

Runs of `ecx_EOEsend`. If every mailbox arrives, both receivers get the frame as it has been
sent. If mailboxes get lost, the receiver still completes only frames that have been sent, each
at most once and in order: the frame number has four bits, and that is enough as long as
something arrives of any fifteen frames in a row.
-/

namespace RaipalSoem

open Lib

/-- The mailboxes hold the fragments of a frame for a port, from the one at place `k` on. -/
def Carried (e : Endian) (port : UInt8) (c : Cutting UInt16 UInt8) :
    Nat → List Mailbox → Prop
  | k, [] => k = c.count
  | k, m :: ms => k < c.count ∧ CarriesFragment e m (c.fragment k) ∧
      eoeHdrFramePortGet (frameinfo1 e m) = port.toUInt16 &&& 0xf ∧ Carried e port c (k + 1) ms

section Sent

variable {σ : Type*} (e : Endian) {send : σ → Mailbox → σ × Int} {view : σ → List Mailbox}
  (port : UInt8) {maxdata : Nat} {buf : List UInt8} (h : EoeSendable maxdata buf)
  (hmax : maxdata + 10 ≤ ecMaxMbx)

include hmax in
/-- The loop sends the fragments that are left, and has enough rounds to do so. -/
theorem eoeSendLoop_sends (hsend : ∀ s m, 0 < (send s m).2)
    (hview : ∀ s m, view (send s m).1 = view s ++ [m]) {k fuel : Nat} (s : EoeSender σ)
    (hk : k < eoeCount maxdata buf) (hfuel : eoeCount maxdata buf ≤ k + fuel) :
    ∃ s' ms, eoeSendLoop e send port maxdata buf fuel (.ofNat k) (eoeCut maxdata buf k) s =
        some s' ∧ 0 < s'.wkc ∧ view s'.slave = view s.slave ++ ms ∧
      Carried e port (eoeCutting h (frameNumber (roundFrame k s.txframeno))) k ms := by
  induction fuel generalizing k s with
  | zero => omega
  | succ fuel ih =>
      have hcarries := roundMailbox_carries e port h hmax hk s
      have hport : eoeHdrFramePortGet (frameinfo1 e (roundMailbox e port maxdata buf k s)) =
          port.toUInt16 &&& 0xf := by
        rw [roundMailbox, eoeMailbox_frameinfo1, framePortGet_frameinfo1]
      have hlog := hview s.slave (roundMailbox e port maxdata buf k s)
      rw [eoeSendLoop_round e send port h hmax hk]
      by_cases hlast : k + 1 = eoeCount maxdata buf
      · refine ⟨_, [roundMailbox e port maxdata buf k s], if_pos hlast, hsend _ _, hlog, hk,
          hcarries, hport, hlast⟩
      · obtain ⟨s', ms, hloop, hwkc, hall, hcarried⟩ :=
          ih (roundSender e send port maxdata buf k s) (show k + 1 < _ by omega) (by omega)
        refine ⟨s', roundMailbox e port maxdata buf k s :: ms, ?_, hwkc, ?_, hk, hcarries, hport,
          hcarried⟩
        · have hgoes : 0 < (roundSender e send port maxdata buf k s).wkc := hsend _ _
          rw [if_neg hlast, if_pos hgoes, hloop]
        · rw [hall]
          change view (send s.slave (roundMailbox e port maxdata buf k s)).1 ++ ms = _
          rw [hlog, List.append_assoc, List.singleton_append]

end Sent

section Arrived

variable {e : Endian} {port : UInt8} {c : Cutting UInt16 UInt8} {k : Nat} {ms : List Mailbox}

/-- All fragments of a frame complete it, whatever has been held before. -/
theorem Carried.hook {size : Nat} (hcarried : Carried e port c k ms)
    (hsize : c.values.length ≤ size) (hk : k < c.count) {p : EoePeer}
    {st : Option (Assembly UInt16 UInt8)} (hholds : Holds p.rx p.buf st) (hupTo : c.UpTo k st) :
    ∃ p', ms.foldlM (EoePeer.hook e size) p = some p' ∧ p'.frames = p.frames ++ [c.values] := by
  induction ms generalizing k p st with
  | nil => exact absurd hcarried hk.ne
  | cons m ms ih =>
      obtain ⟨-, hm, -, hrest⟩ := hcarried
      obtain ⟨p₁, hhook, hholds₁, -, hframes⟩ := EoePeer.hook_receive hm hholds (hupTo.fits hsize hk)
      rw [hupTo.receive hk] at hholds₁ hframes
      simp only [List.foldlM_cons, hhook, Option.bind_eq_bind, Option.bind_some]
      by_cases hlast : k + 1 = c.count
      · rw [if_pos hlast] at hframes
        cases ms with
        | nil => exact ⟨p₁, rfl, hframes⟩
        | cons => exact absurd hlast hrest.1.ne
      · rw [if_neg hlast] at hholds₁ hframes
        obtain ⟨p', hfold, hframes'⟩ := ih hrest (show k + 1 < c.count by omega) hholds₁ fun _ => rfl
        refine ⟨p', hfold, ?_⟩
        rw [hframes', hframes]
        simp

/-- What `ecx_EOErecv` has got before the fragment number `k`. -/
structure RecvUpTo (c : Cutting UInt16 UInt8) (k : Nat) (st : EoeRecv) : Prop where
  number : st.rxfragmentno.toNat = k
  frame : 0 < k → st.rxframeno.toUInt16 = c.frame
  offset : st.rxframeoffset = c.cut k
  got : st.buf.read 0 (c.cut k) = c.values.take (c.cut k)

theorem RecvUpTo.check {psize : Nat} {m : Mailbox} {st : EoeRecv} (hst : RecvUpTo c k st)
    (hm : CarriesFragment e m (c.fragment k))
    (hport : eoeHdrFramePortGet (frameinfo1 e m) = port.toUInt16) (hroom : c.room ≤ psize)
    (hframe : c.frame.toUInt8.toUInt16 = c.frame) :
    ∃ rxframeno, eoeRecvCheck e port psize m st = some rxframeno ∧
      rxframeno.toUInt16 = c.frame := by
  have hexpected : st.rxfragmentno.toUInt16 = eoeHdrFragNoGet (frameinfo2 e m) := by
    rw [hm.place]
    exact (toUInt16_eq_ofNat_iff hm.places).mpr hst.number
  have hnumber : eoeHdrFrameNoGet (frameinfo2 e m) = c.frame := hm.frame
  by_cases hk : k = 0
  · have hzero : st.rxfragmentno = 0 := UInt8.toNat_inj.mp (hst.number.trans hk)
    have hfits : ¬(psize : Int) < (eoeHdrFrameOffsetGet (frameinfo2 e m) <<< 5).toNat := by
      rw [hm.room hk]
      exact not_lt.mpr (Int.ofNat_le.mpr hroom)
    refine ⟨c.frame.toUInt8, ?_, hframe⟩
    rw [hzero] at hexpected
    simp only [eoeRecvCheck, hzero, hexpected, ne_eq, not_true_eq_false, false_and, if_false,
      if_true, if_neg hfits, hport, hnumber]
  · have hbusy : ¬st.rxfragmentno = 0 := fun hzero => hk (hst.number ▸ congrArg UInt8.toNat hzero)
    have hat : st.rxframeoffset = ((eoeHdrFrameOffsetGet (frameinfo2 e m) <<< 5).toNat : Int) := by
      rw [hm.offset hk, hst.offset]
      rfl
    have hsame := hst.frame (Nat.pos_of_ne_zero hk)
    refine ⟨st.rxframeno, ?_, hsame⟩
    simp only [eoeRecvCheck, hexpected, ne_eq, not_true_eq_false, false_and, if_false, hbusy,
      hnumber, hsame, hat]

/-- The variables of `ecx_EOErecv` after the data of a fragment has been stored. -/
def EoeRecv.store (st : EoeRecv) (rxframeno : UInt8) (data : List UInt8) : EoeRecv :=
  { st with
    rxframeno := rxframeno
    buf := st.buf.write st.rxframeoffset.toNat data
    rxframeoffset := st.rxframeoffset + data.length
    rxfragmentno := st.rxfragmentno + 1 }

theorem cut_add_length (hk : k < c.count) :
    c.cut k + (c.fragment k).data.length = c.cut (k + 1) := by
  have hlength := congrArg List.length (c.take_append_fragment hk)
  rwa [List.length_append, c.length_take_cut hk.le, c.length_take_cut hk] at hlength

theorem RecvUpTo.store {st : EoeRecv} (hst : RecvUpTo c k st) (rxframeno : UInt8)
    (hplaces : k < 64) (hnumber : rxframeno.toUInt16 = c.frame) (hk : k < c.count) :
    RecvUpTo c (k + 1) (st.store rxframeno (c.fragment k).data) := by
  have hsum := cut_add_length hk
  refine ⟨?_, fun _ => hnumber, ?_, ?_⟩
  · change (st.rxfragmentno + 1).toNat = k + 1
    rw [UInt8.toNat_add, hst.number]
    exact Nat.mod_eq_of_lt (by change k + 1 < 2 ^ 8; omega)
  · change st.rxframeoffset + ((c.fragment k).data.length : Int) = _
    rw [hst.offset, ← hsum]
    push_cast
    rfl
  · change (st.buf.write st.rxframeoffset.toNat _).read 0 _ = _
    rw [hst.offset, Int.toNat_natCast, ← hsum, Memory.read_add, Nat.zero_add,
      Memory.read_write, Memory.read_write_apart _ (Or.inl (by omega)), hst.got, hsum]
    exact c.take_append_fragment hk

/-- `ecx_EOErecv` gets the frame from the mailboxes with its fragments. -/
theorem Carried.recv {psize : Nat} {wkcs : List Int} (hcarried : Carried e port c k ms)
    (hwkcs : ∀ wkc ∈ wkcs, 0 < wkc) (hlength : wkcs.length = ms.length) (hport : port < 0x10)
    (hroom : c.room ≤ psize) (hframe : c.frame.toUInt8.toUInt16 = c.frame) (hk : k < c.count)
    {st : EoeRecv} (hst : RecvUpTo c k st) :
    ∃ wkc st', eoeRecvLoop e port psize (wkcs.zip ms) st = some (wkc, st') ∧ 0 < wkc ∧
      st'.psize = c.values.length ∧ st'.buf.read 0 c.values.length = c.values := by
  induction ms generalizing k wkcs st with
  | nil => exact absurd hcarried hk.ne
  | cons m ms ih =>
      cases wkcs with
      | nil => simp at hlength
      | cons wkc wkcs =>
          obtain ⟨-, hm, hportEq, hrest⟩ := hcarried
          have hmask : port.toUInt16 &&& 0xf = port.toUInt16 := by
            have hcases : ∀ p : Fin 16, (UInt8.ofNat p).toUInt16 &&& 0xf = (UInt8.ofNat p).toUInt16 := by
              decide
            simpa using hcases ⟨port.toNat, UInt8.lt_iff_toNat_lt.mp hport⟩
          obtain ⟨rxframeno, hcheck, hnumber⟩ := hst.check hm (hportEq.trans hmask) hroom hframe
          have hpos : 0 < wkc := hwkcs wkc (by simp)
          have hsize : ((getWord e m 0).toNat : Int) - 4 = (c.fragment k).data.length := by
            rw [hm.length]
            omega
          have hsum := cut_add_length hk
          have hinside := c.inside (k + 1) hk
          have hfits : st.rxframeoffset + ((c.fragment k).data.length : Int) ≤ psize := by
            have := c.fits
            rw [hst.offset]
            omega
          have hcopy : (0 : Int) ≤ (c.fragment k).data.length ∧ 0 ≤ st.rxframeoffset ∧
              (10 : Int) + (c.fragment k).data.length ≤ (ecMaxMbx + 1 : Nat) := by
            have := hm.inside
            rw [hst.offset]
            omega
          have hnext := hst.store rxframeno hm.places hnumber hk
          simp only [List.zip_cons_cons, eoeRecvLoop, if_pos hpos, if_pos hm.mbxType, hcheck, hsize,
            if_pos hfits, if_pos hcopy, Int.toNat_natCast, hm.data, hm.last, hm.time, ne_eq,
            not_true_eq_false, if_false]
          by_cases hlast : k + 1 = c.count
          · have hflag : (c.fragment k).last = true := by simp [Cutting.fragment, hlast]
            have hall : c.cut (k + 1) = c.values.length := by rw [hlast, c.finish]
            rw [hflag]
            refine ⟨wkc, _, if_pos (by decide), hpos, ?_, ?_⟩
            · exact hnext.offset.trans (congrArg Nat.cast hall)
            · have hgot := hnext.got
              rwa [hall, List.take_length] at hgot
          · have hflag : (c.fragment k).last = false := by simp [Cutting.fragment, hlast]
            rw [hflag, if_neg (by decide)]
            exact ih hrest (fun w hw => hwkcs w (List.mem_cons_of_mem wkc hw))
              (Nat.succ.inj hlength) (show k + 1 < c.count by omega) hnext

end Arrived

/-- Every mailbox is accepted, and the slave gets it. -/
structure Accepts {σ : Type*} (send : σ → Mailbox → σ × Int) (view : σ → List Mailbox) :
    Prop where
  wkc : ∀ s m, 0 < (send s m).2
  view : ∀ s m, view (send s m).1 = view s ++ [m]

section Deliver

variable {σ : Type*} (e : Endian) {send : σ → Mailbox → σ × Int} {view : σ → List Mailbox}
  (port : UInt8) {mbxL : UInt16} {buf : List UInt8}

theorem frameNumber_small (n : UInt8) :
    (frameNumber n).toUInt8.toUInt16 = frameNumber n := by
  apply UInt16.toBitVec_inj.mp
  ext i hi
  simp only [frameNumber]
  interval_cases i <;> simp

theorem eoeCount_pos (maxdata : Nat) (buf : List UInt8) : 0 < eoeCount maxdata buf :=
  Nat.succ_pos _

theorem ecxEoesend_sends (hsend : Accepts send view) (hlow : 10 ≤ mbxL.toNat)
    (hhigh : mbxL.toNat ≤ ecMaxMbx) (h : EoeSendable (mbxL.toNat - 10) buf) {fuel : Nat}
    (hfuel : 64 ≤ fuel) (s : EoeSender σ) :
    ∃ s' ms, ecxEoesend e send port mbxL fuel buf s = some s' ∧ 0 < s'.wkc ∧
      view s'.slave = view s.slave ++ ms ∧
      Carried e port (eoeCutting h (frameNumber (s.txframeno + 1))) 0 ms := by
  have hmax : ((mbxL.toNat : Int) - 0x0a) = ((mbxL.toNat - 10 : Nat) : Int) := by omega
  have hrounds : eoeCount (mbxL.toNat - 10) buf ≤ 0 + fuel := by
    have := eoeCount_le h
    omega
  have hsends := eoeSendLoop_sends e port h (by omega) hsend.wkc hsend.view
    { s with mbxOut := (putWord e (fun _ => 0) 2 0x0000).write 4 [0x00] }
    (eoeCount_pos _ buf) hrounds
  rw [eoeCut_zero] at hsends
  rw [ecxEoesend, hmax]
  exact hsends

/-- The mailboxes of `ecx_EOEsend`, given to `ecx_EOEreadfragment` one after another, yield the
frame, in whatever state of an earlier frame the receiver is. -/
theorem ecxEoesend_hook (hsend : Accepts send view) (hlow : 10 ≤ mbxL.toNat)
    (hhigh : mbxL.toNat ≤ ecMaxMbx) (h : EoeSendable (mbxL.toNat - 10) buf) {fuel : Nat}
    (hfuel : 64 ≤ fuel) (s : EoeSender σ) :
    ∃ s' ms, ecxEoesend e send port mbxL fuel buf s = some s' ∧ 0 < s'.wkc ∧
      view s'.slave = view s.slave ++ ms ∧
      ∀ (size : Nat) (p : EoePeer), buf.length ≤ size →
        ∃ p', ms.foldlM (EoePeer.hook e size) p = some p' ∧ p'.frames = p.frames ++ [buf] := by
  obtain ⟨s', ms, hsent, hwkc, hlog, hcarried⟩ :=
    ecxEoesend_sends e port hsend hlow hhigh h hfuel s
  refine ⟨s', ms, hsent, hwkc, hlog, fun size p hsize => ?_⟩
  obtain ⟨st, hholds⟩ := exists_holds p.rx p.buf
  exact hcarried.hook hsize (eoeCount_pos _ buf) hholds (Cutting.upTo_zero st)

/-- A slave that accepts every mailbox and keeps it. -/
def keepMailbox (s : List Mailbox) (m : Mailbox) : List Mailbox × Int := (s ++ [m], 1)

theorem keepMailbox_accepts : Accepts keepMailbox id := ⟨fun _ _ => one_pos, fun _ _ => rfl⟩

/-- A frame of a hundred bytes takes two fragments of 64 bytes. -/
theorem hundred_sendable (b : UInt8) :
    EoeSendable ((74 : UInt16).toNat - 10) (List.replicate 100 b) :=
  ⟨Or.inr (by decide), by rw [List.length_replicate]; decide⟩

/-- A frame of a hundred bytes. -/
def hundredBytes : List UInt8 := List.replicate 100 0x55

theorem hundredBytes_sendable : EoeSendable ((74 : UInt16).toNat - 10) hundredBytes :=
  hundred_sendable 0x55

theorem ecxEoesend_hook_hundred :
    ∃ s' ms, ecxEoesend .little keepMailbox 0 74 64 hundredBytes ⟨[], 0, 0, fun _ => 0, 0⟩ =
        some s' ∧ 0 < s'.wkc ∧ id s'.slave = id [] ++ ms ∧
      ∀ (size : Nat) (p : EoePeer), hundredBytes.length ≤ size →
        ∃ p', ms.foldlM (EoePeer.hook .little size) p = some p' ∧
          p'.frames = p.frames ++ [hundredBytes] :=
  ecxEoesend_hook .little 0 keepMailbox_accepts (by decide) (by decide) hundredBytes_sendable
    (le_refl 64) ⟨[], 0, 0, fun _ => 0, 0⟩

/-- The mailboxes of `ecx_EOEsend` make `ecx_EOErecv` return the frame, if the buffer takes its
size rounded up to blocks of 32 bytes. -/
theorem ecxEoesend_recv (hsend : Accepts send view) (hlow : 10 ≤ mbxL.toNat)
    (hhigh : mbxL.toNat ≤ ecMaxMbx) (h : EoeSendable (mbxL.toNat - 10) buf) {fuel : Nat}
    (hfuel : 64 ≤ fuel) (hport : port < 0x10) (s : EoeSender σ) :
    ∃ s' ms, ecxEoesend e send port mbxL fuel buf s = some s' ∧ 0 < s'.wkc ∧
      view s'.slave = view s.slave ++ ms ∧
      ∀ (psize : Nat) (buf₀ : Memory UInt8) (wkcs : List Int),
        (buf.length + 31) / 32 * 32 ≤ psize → (∀ wkc ∈ wkcs, 0 < wkc) → wkcs.length = ms.length →
        ∃ wkc st, ecxEoerecv e port psize buf₀ (wkcs.zip ms) = some (wkc, st) ∧ 0 < wkc ∧
          st.psize = buf.length ∧ st.buf.read 0 buf.length = buf := by
  obtain ⟨s', ms, hsent, hwkc, hlog, hcarried⟩ :=
    ecxEoesend_sends e port hsend hlow hhigh h hfuel s
  refine ⟨s', ms, hsent, hwkc, hlog, fun psize buf₀ wkcs hroom hwkcs hlength => ?_⟩
  have hstart : RecvUpTo (eoeCutting h (frameNumber (s.txframeno + 1))) 0
      { rxfragmentno := 0, rxframeno := 0xff, rxframeoffset := 0, psize := psize, buf := buf₀ } := by
    have hcut := (eoeCutting h (frameNumber (s.txframeno + 1))).start
    refine ⟨rfl, fun hpos => absurd hpos (lt_irrefl 0), ?_, ?_⟩
    · rw [hcut]
      rfl
    · rw [hcut]
      rfl
  exact hcarried.recv hwkcs hlength hport hroom (frameNumber_small _) (eoeCount_pos _ buf) hstart

theorem ecxEoesend_recv_hundred :
    ∃ s' ms, ecxEoesend .big keepMailbox 3 74 64 hundredBytes ⟨[], 0, 0, fun _ => 0, 0⟩ =
        some s' ∧ 0 < s'.wkc ∧ id s'.slave = id [] ++ ms ∧
      ∀ (psize : Nat) (buf₀ : Memory UInt8) (wkcs : List Int),
        (hundredBytes.length + 31) / 32 * 32 ≤ psize → (∀ wkc ∈ wkcs, 0 < wkc) →
        wkcs.length = ms.length →
        ∃ wkc st, ecxEoerecv .big 3 psize buf₀ (wkcs.zip ms) = some (wkc, st) ∧ 0 < wkc ∧
          st.psize = hundredBytes.length ∧
          st.buf.read 0 hundredBytes.length = hundredBytes :=
  ecxEoesend_recv .big 3 keepMailbox_accepts (by decide) (by decide) hundredBytes_sendable
    (le_refl 64) (by decide) ⟨[], 0, 0, fun _ => 0, 0⟩

end Deliver

/-- What can become of a mailbox: it is lost, or it reaches the hook. -/
inductive EoePasses (e : Endian) (size : Nat) (p : EoePeer) (m : Mailbox) : EoePeer → Prop
  | lost : EoePasses e size p m p
  | arrived {p' : EoePeer} : p.hook e size m = some p' → EoePasses e size p m p'

/-- What the receiver holds, while fragments of a frame are sent: since the sender has begun
with the frame, nothing has arrived, or what is held belongs to the frame. -/
structure Heard (c : Cutting UInt16 UInt8) (st₀ : Option (Assembly UInt16 UInt8)) (arrived₀ : Nat)
    (st : Option (Assembly UInt16 UInt8)) (p : EoePeer) : Prop where
  holds : Holds p.rx p.buf st
  since : st = st₀ ∧ p.arrived = arrived₀ ∨
    arrived₀ < p.arrived ∧ ∀ a, st = some a → a.frame = c.frame

section Step

variable {e : Endian} {c : Cutting UInt16 UInt8} {size k arrived₀ : Nat} {m : Mailbox}
  {p p' : EoePeer} {st₀ st : Option (Assembly UInt16 UInt8)}

theorem Heard.arrived (hheard : Heard c st₀ arrived₀ st p) :
    arrived₀ ≤ p.arrived := by
  obtain ⟨-, heq⟩ | ⟨hlt, -⟩ := hheard.since
  · exact heq.ge
  · exact hlt.le

/-- A fragment that is sent and may get lost: with the last one the frame may be completed, and
nothing else is ever completed. -/
theorem Heard.fragment (hheard : Heard c st₀ arrived₀ st p) (hclean : c.Clean k st)
    (hk : k < c.count) (hsize : c.values.length ≤ size) (hm : CarriesFragment e m (c.fragment k))
    (hpass : EoePasses e size p m p') :
    ∃ st', Heard c st₀ arrived₀ st' p' ∧
      (k + 1 < c.count → c.Clean (k + 1) st' ∧ p'.frames = p.frames) ∧
      (p'.frames = p.frames ∨ p'.frames = p.frames ++ [c.values]) := by
  cases hpass with
  | lost =>
      exact ⟨st, hheard, fun _ => ⟨hclean.mono (Nat.le_succ k), rfl⟩, Or.inl rfl⟩
  | arrived hhook =>
      obtain ⟨p₁, hhook₁, hholds, harrived, hframes⟩ :=
        EoePeer.hook_receive hm hheard.holds (hclean.fits hsize hk)
      obtain rfl : p' = p₁ := Option.some.inj (hhook.symm.trans hhook₁)
      refine ⟨(Assembly.receive st (c.fragment k)).1, ⟨hholds, Or.inr ⟨?_, fun a ha => ?_⟩⟩,
        fun hnext => ?_, ?_⟩
      · have := hheard.arrived
        omega
      · exact Assembly.frame_of_receive ha
      · obtain ⟨hclean', hnone⟩ := hclean.receive_more hnext
        rw [hnone] at hframes
        exact ⟨hclean', by simpa using hframes⟩
      · obtain hnext | hlast := Nat.lt_or_eq_of_le (Nat.succ_le_of_lt hk)
        · rw [(hclean.receive_more hnext).2] at hframes
          exact Or.inl (by simpa using hframes)
        · obtain ⟨-, hnone | hsome⟩ := hclean.receive_last hlast
          · rw [hnone] at hframes
            exact Or.inl (by simpa using hframes)
          · rw [hsome] at hframes
            exact Or.inr (by simpa using hframes)

end Step

section Loop

variable {σ : Type*} (e : Endian) {send : σ → Mailbox → σ × Int} {view : σ → EoePeer}
  {size : Nat} (hsend : ∀ s m, EoePasses e size (view s) m (view (send s m).1)) (port : UInt8)
  {maxdata : Nat} {buf : List UInt8} (h : EoeSendable maxdata buf)
  (hmax : maxdata + 10 ≤ ecMaxMbx) {st₀ : Option (Assembly UInt16 UInt8)} {arrived₀ : Nat}

include hsend hmax in
/-- The loop over the fragments: the induction is on the rounds, and what the receiver holds of
the frame is always what earlier fragments have brought. -/
theorem eoeSendLoop_lossy (hsize : buf.length ≤ size) {k fuel : Nat} (s s' : EoeSender σ)
    {st : Option (Assembly UInt16 UInt8)} (hk : k < eoeCount maxdata buf)
    (hheard : Heard (eoeCutting h (frameNumber (roundFrame k s.txframeno))) st₀ arrived₀ st
      (view s.slave))
    (hclean : (eoeCutting h (frameNumber (roundFrame k s.txframeno))).Clean k st)
    (hloop : eoeSendLoop e send port maxdata buf fuel (.ofNat k) (eoeCut maxdata buf k) s =
      some s') :
    s'.txframeno = roundFrame k s.txframeno ∧
      (∃ st', Heard (eoeCutting h (frameNumber (roundFrame k s.txframeno))) st₀ arrived₀ st'
        (view s'.slave)) ∧
      ((view s'.slave).frames = (view s.slave).frames ∨
        (view s'.slave).frames = (view s.slave).frames ++ [buf]) := by
  induction fuel generalizing k s st with
  | zero => cases hloop
  | succ fuel ih =>
      obtain ⟨st₁, hheard₁, hmore, hframes⟩ := hheard.fragment hclean hk hsize
        (roundMailbox_carries e port h hmax hk s)
        (hsend s.slave (roundMailbox e port maxdata buf k s))
      rw [eoeSendLoop_round e send port h hmax hk] at hloop
      by_cases hlast : k + 1 = eoeCount maxdata buf
      · rw [if_pos hlast] at hloop
        cases hloop
        exact ⟨rfl, ⟨st₁, hheard₁⟩, hframes⟩
      · rw [if_neg hlast] at hloop
        split_ifs at hloop with hwkc
        · obtain ⟨hclean₁, hsame⟩ := hmore (show k + 1 < eoeCount maxdata buf by omega)
          obtain ⟨hnumber, hheard', hframes'⟩ := ih (roundSender e send port maxdata buf k s)
            (show k + 1 < eoeCount maxdata buf by omega) hheard₁ hclean₁ hloop
          refine ⟨hnumber, hheard', ?_⟩
          change (view (roundSender e send port maxdata buf k s).slave).frames = _ at hsame
          rwa [hsame] at hframes'
        · cases hloop
          exact ⟨rfl, ⟨st₁, hheard₁⟩, hframes⟩

end Loop

/-- Up to fifteen numbers in a row are distinct from the one that follows. -/
theorem frameNumber_ne (n : UInt8) {d : Nat} (hd : d < 15) :
    frameNumber n ≠ frameNumber (n + .ofNat (d + 1)) := by
  have hnumber : ∀ b : UInt8, (frameNumber b).toNat = b.toNat % 16 := fun b => by
    rw [frameNumber, UInt16.toNat_and, UInt8.toNat_toUInt16]
    exact Nat.and_two_pow_sub_one_eq_mod b.toNat 4
  intro hsame
  have hmod := congrArg UInt16.toNat hsame
  have hsucc : (UInt8.ofNat (d + 1)).toNat = d + 1 := Nat.mod_eq_of_lt (by omega)
  rw [hnumber, hnumber, UInt8.toNat_add, hsucc] at hmod
  omega

section Session

variable {σ : Type*} (e : Endian) (send : σ → Mailbox → σ × Int) (view : σ → EoePeer)
  (size : Nat) (mbxL : UInt16)

/-- A run of calls of `ecx_EOEsend`: the frames that have been sent, the number of frames in a
row of which nothing has arrived, and the sender. The run stays below fifteen of these. -/
inductive EoeSession : List (List UInt8) → Nat → EoeSender σ → Prop
  | start {s : EoeSender σ} (hrx : (view s.slave).rx.rxfragmentno = 0)
      (hframes : (view s.slave).frames = []) : EoeSession [] 0 s
  | send {frames : List (List UInt8)} {silent silent' fuel : Nat} {s s' : EoeSender σ}
      {port : UInt8} {buf : List UInt8} (before : EoeSession frames silent s)
      (hbuf : EoeSendable (mbxL.toNat - 10) buf) (hsize : buf.length ≤ size)
      (hsent : ecxEoesend e send port mbxL fuel buf s = some s')
      (hsilent : silent' =
        if (view s'.slave).arrived = (view s.slave).arrived then silent + 1 else 0)
      (hbound : silent' < 15) : EoeSession (frames ++ [buf]) silent' s'

/-- What the receiver holds belongs to one of the last frames. -/
def Recent (silent : Nat) (s : EoeSender σ) : Prop :=
  ∃ st, Holds (view s.slave).rx (view s.slave).buf st ∧ ∀ a, st = some a →
    ∃ d ≤ silent, ∃ n, s.txframeno = n + .ofNat d ∧ a.frame = frameNumber n

variable {e send view size mbxL}

/-- A call keeps the receiver in step, and it completes the frame that is sent or nothing. -/
theorem Recent.call (hsend : ∀ s m, EoePasses e size (view s) m (view (send s m).1))
    (hlow : 10 ≤ mbxL.toNat) (hhigh : mbxL.toNat ≤ ecMaxMbx) {silent silent' fuel : Nat}
    {s s' : EoeSender σ} {port : UInt8} {buf : List UInt8} (hrecent : Recent view silent s)
    (hbuf : EoeSendable (mbxL.toNat - 10) buf) (hsize : buf.length ≤ size)
    (hsent : ecxEoesend e send port mbxL fuel buf s = some s')
    (hsilent : silent' =
      if (view s'.slave).arrived = (view s.slave).arrived then silent + 1 else 0)
    (hbound : silent < 15) :
    Recent view silent' s' ∧ ((view s'.slave).frames = (view s.slave).frames ∨
      (view s'.slave).frames = (view s.slave).frames ++ [buf]) := by
  obtain ⟨st, hholds, hold⟩ := hrecent
  have hmax : ((mbxL.toNat : Int) - 0x0a) = ((mbxL.toNat - 10 : Nat) : Int) := by omega
  have hclean : (eoeCutting hbuf (frameNumber (s.txframeno + 1))).Clean 0 st := by
    intro a ha hframe
    obtain ⟨d, hd, n, hn, hnumber⟩ := hold a ha
    have hne := frameNumber_ne n (lt_of_le_of_lt hd hbound)
    rw [UInt8.ofNat_add, ← UInt8.add_assoc, ← hn, ← hnumber, hframe] at hne
    exact absurd rfl hne
  have hstart : Heard (eoeCutting hbuf (frameNumber (s.txframeno + 1))) st
      (view s.slave).arrived st (view s.slave) := ⟨hholds, Or.inl ⟨rfl, rfl⟩⟩
  have hloop : eoeSendLoop e send port ((mbxL.toNat - 10 : Nat) : Int) buf fuel (.ofNat 0)
      (eoeCut (mbxL.toNat - 10) buf 0)
      { s with mbxOut := (putWord e (fun _ => 0) 2 0x0000).write 4 [0x00] } = some s' := by
    rwa [eoeCut_zero, ← hmax]
  obtain ⟨hnumber, ⟨st', hheard⟩, hframes⟩ := eoeSendLoop_lossy e hsend port hbuf (by omega) hsize
    { s with mbxOut := (putWord e (fun _ => 0) 2 0x0000).write 4 [0x00] } s' (eoeCount_pos _ buf)
    hstart hclean hloop
  refine ⟨⟨st', hheard.holds, fun a ha => ?_⟩, hframes⟩
  obtain ⟨hsame, hnone⟩ | ⟨hsome, hown⟩ := hheard.since
  · obtain ⟨d, hd, n, hn, hframe⟩ := hold a (hsame ▸ ha)
    refine ⟨d + 1, ?_, n, ?_, hframe⟩
    · rw [hsilent, if_pos hnone]
      exact Nat.succ_le_succ hd
    · rw [hnumber, UInt8.ofNat_add, ← UInt8.add_assoc, ← hn]
      rfl
  · refine ⟨0, Nat.zero_le _, s'.txframeno, (UInt8.add_zero _).symm, ?_⟩
    rw [hnumber]
    exact hown a ha

/-- Whatever mailboxes get lost, the receiver completes only frames that have been sent, each at
most once and in the order in which they have been sent. -/
theorem eoeSession_delivers (hsend : ∀ s m, EoePasses e size (view s) m (view (send s m).1))
    (hlow : 10 ≤ mbxL.toNat) (hhigh : mbxL.toNat ≤ ecMaxMbx) {frames : List (List UInt8)}
    {silent : Nat} {s : EoeSender σ} (hrun : EoeSession e send view size mbxL frames silent s) :
    (view s.slave).frames.Sublist frames := by
  suffices hall : (silent < 15 ∧ Recent view silent s) ∧ (view s.slave).frames.Sublist frames from
    hall.2
  induction hrun with
  | start hrx hframes =>
      refine ⟨⟨by decide, none, hrx, fun a ha => by cases ha⟩, ?_⟩
      rw [hframes]
  | send before hbuf hsize hsent hsilent hbound ih =>
      obtain ⟨⟨hbefore, hrecent⟩, hsublist⟩ := ih
      obtain ⟨hrecent', hframes⟩ :=
        hrecent.call hsend hlow hhigh hbuf hsize hsent hsilent hbefore
      refine ⟨⟨hbound, hrecent'⟩, ?_⟩
      obtain hsame | hnew := hframes
      · rw [hsame]
        exact hsublist.trans (List.sublist_append_left _ _)
      · rw [hnew]
        exact hsublist.append_right _

end Session

/-- A link that loses the fourth mailbox. -/
def lossyLink (size : Nat) (s : EoePeer × List Mailbox) (m : Mailbox) :
    (EoePeer × List Mailbox) × Int :=
  ((if s.2.length = 3 then s.1 else (s.1.hook .little size m).getD s.1, s.2 ++ [m]), 1)

theorem lossyLink_passes (size : Nat) (s : EoePeer × List Mailbox) (m : Mailbox) :
    EoePasses .little size s.1 m (lossyLink size s m).1.1 := by
  simp only [lossyLink]
  split
  · exact EoePasses.lost
  · cases hhook : s.1.hook .little size m with
    | none => exact EoePasses.lost
    | some p' => exact EoePasses.arrived hhook

/-- A sender and a receiver that have not done anything yet. -/
def quietSender : EoeSender (EoePeer × List Mailbox) :=
  ⟨(⟨EoeRx.reset, fun _ => 0, 0, []⟩, []), 0, 0, fun _ => 0, 0⟩

/-- A call that sends a hundred bytes `b`, in two fragments. -/
def sendHundred (b : UInt8) (s : EoeSender (EoePeer × List Mailbox)) :
    Option (EoeSender (EoePeer × List Mailbox)) :=
  ecxEoesend .little (lossyLink 1024) 0 74 64 (List.replicate 100 b) s

theorem sendHundred_sends (b : UInt8) (s : EoeSender (EoePeer × List Mailbox)) :
    ∃ s', sendHundred b s = some s' := by
  have hlink : Accepts (lossyLink 1024) Prod.snd := ⟨fun _ _ => one_pos, fun _ _ => rfl⟩
  obtain ⟨s', -, hsent, -⟩ :=
    ecxEoesend_sends .little 0 hlink (by decide) (by decide) (hundred_sendable b) (le_refl 64) s
  exact ⟨s', hsent⟩

/-- Of three frames the second one loses its last fragment; the others are completed. -/
theorem eoeSession_delivers_hundred :
    ∃ s₁ s₂ s₃,
      sendHundred 1 quietSender = some s₁ ∧ sendHundred 2 s₁ = some s₂ ∧
      sendHundred 3 s₂ = some s₃ ∧
      s₃.slave.1.frames = [List.replicate 100 1, List.replicate 100 3] ∧
      s₃.slave.1.frames.Sublist
        [List.replicate 100 1, List.replicate 100 2, List.replicate 100 3] := by
  obtain ⟨s₁, h₁⟩ := sendHundred_sends 1 quietSender
  obtain ⟨s₂, h₂⟩ := sendHundred_sends 2 s₁
  obtain ⟨s₃, h₃⟩ := sendHundred_sends 3 s₂
  have hsize (b : UInt8) : (List.replicate 100 b).length ≤ 1024 := by
    rw [List.length_replicate]
    decide
  have hcompleted : (((sendHundred 1 quietSender).bind (sendHundred 2)).bind
      (sendHundred 3)).map (fun s => s.slave.1.frames) =
        some [List.replicate 100 1, List.replicate 100 3] := by
    decide +kernel
  rw [h₁, Option.bind_some, h₂, Option.bind_some, h₃] at hcompleted
  refine ⟨s₁, s₂, s₃, h₁, h₂, h₃, Option.some.inj hcompleted, ?_⟩
  have hstart : EoeSession .little (lossyLink 1024) Prod.fst 1024 74 [] 0 quietSender :=
    EoeSession.start rfl rfl
  have hfirst := hstart.send (hundred_sendable 1) (hsize 1) h₁ rfl (by split_ifs <;> decide)
  have hsecond := hfirst.send (hundred_sendable 2) (hsize 2) h₂ rfl (by split_ifs <;> decide)
  have hthird := hsecond.send (hundred_sendable 3) (hsize 3) h₃ rfl (by split_ifs <;> decide)
  exact eoeSession_delivers (lossyLink_passes 1024) (by decide) (by decide) hthird

end RaipalSoem
