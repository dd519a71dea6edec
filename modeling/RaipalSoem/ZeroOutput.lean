import RaipalSoem.Demo
import RaipalSoem.BusExchange

/-!
# Zero outputs until the configuration is accepted

The image starts as zeros, the first exchanges of a run send it as it is, and what comes
back changes the input part only. The outputs stay zero until the command loop starts,
which is behind the return of `load_cfg`. The loop then starts with a frame in which the
control words are not zero.
-/

namespace RaipalSoem

open Lib

variable {m : Mapping} {bus : List SlaveInfo}

/-- All output areas of the slaves hold zeros. -/
def Mapping.OutputsZero (m : Mapping) (image : Image) : Prop :=
  ∀ s ∈ m.slaves, ∀ a ∈ s.area .output, image a = 0

/-- All frames that are sent for the image carry zeros in the output areas. -/
def Mapping.ZeroFrames (m : Mapping) (sent : Image) : Prop :=
  ∀ d ∈ ecSendProcessdata m.group sent, ∀ s ∈ m.slaves, ∀ a ∈ s.area .output,
    d.block.Contains a → d.data[a - d.block.start]? = some 0

/-- The exchange is one of the library: each datagram that is sent fits its buffer and is
lost or comes back, and an LRW comes back with the output bytes that it has carried. -/
def Mapping.LibraryExchange (m : Mapping) (sent : Image) (x : Exchange) : Prop :=
  ∃ frames : List (Datagram × Option Reply),
    frames.map Prod.fst = ecSendProcessdata m.group sent ∧
      tickOnce sent frames = some (x.image, x.wkc) ∧
      ∀ d r, (d, some r) ∈ frames → d.cmd = .lrw → ∀ s ∈ m.slaves, ∀ a ∈ s.area .output,
        d.block.Contains a → r.memory a = sent a

/-- Every exchange of the run is one of the library. -/
def LibraryRun (e : Endian) (env : Env m) : Prop :=
  ∀ sent x, .exchange sent x ∈ (demoMain e env).trace → m.LibraryExchange sent x

/-- Every frame of the event carries zeros in the output areas. -/
def Event.SendsZero (m : Mapping) (ev : Event m.slaves.length) : Prop :=
  ∀ sent x, ev = .exchange sent x → m.ZeroFrames sent

/-- Nothing but zeros is sent to the outputs before `load_cfg` has returned one entry for
each slave, and nothing else at all if `load_cfg` does not return. -/
def NoEarlyActuation (e : Endian) (env : Env m) : Prop :=
  HoldsUntil (Event.SendsZero m) (· = .loaded m.slaves.length) (demoMain e env).trace ∧
    ((∀ cfg, loadCfg env.document m.slaves.length ≠ .loaded cfg) →
      ∀ ev ∈ (demoMain e env).trace, Event.SendsZero m ev)

/-- The document is a sequence that `load_cfg` accepts: its size agrees as an `int`, there is
memory for it, and all its fields convert. -/
def Document.Accepted (doc : Document) (expectedSize : Int) (entries : List Entry) : Prop :=
  doc = .sequence entries true ∧ intOfSize entries.length = expectedSize ∧
    (loadEntries 0 entries).isSome = true

/-- If the constructor returns and the document is accepted, the document has one entry for
each slave. -/
def Env.Counted (env : Env m) : Prop :=
  3 ≤ env.argc → env.Found → env.ReadsOperational →
    ∀ entries, env.document.Accepted m.slaves.length entries → entries.length = m.slaves.length

section Exchange

/-- The output areas lie in front of the inputs. -/
theorem Mapping.LaysOut.output_lt (h : m.LaysOut bus) {s : EcSlave} (hs : s ∈ m.slaves) {a : Nat}
    (ha : a ∈ s.area .output) : a < m.group.obytes := by
  obtain ⟨f, hf, hholds⟩ := forall₂_mem_right (h.holds .output) hs
  have hend := (busFields_bounds bus hf).2.1 rfl
  have hobytes := h.obytes
  have := ((hholds.mem_area a).mp ha).2.2
  omega

/-- An image with zero outputs is sent as zeros. -/
theorem Mapping.OutputsZero.zeroFrames {image : Image} (hzero : m.OutputsZero image) :
    m.ZeroFrames image := by
  intro d hd s hs a ha hcontains
  obtain ⟨h₁, h₂⟩ := hcontains
  have hlt : a - d.block.start < d.block.len := by omega
  by_cases hcmd : d.cmd = .lrd
  · rw [(mem_send_lrd hd hcmd).2]
    simp [hlt]
  · rw [mem_send_data hd (by simp [Datagram.serves, hcmd])]
    simp [Memory.read, hlt, Nat.add_sub_cancel' h₁, hzero s hs a ha]

/-- What a run of frames brings back at an address is what was there, if every frame that
reads the address brings the same. -/
theorem receive_foldl_image_of_same (frames : List (Datagram × Option Reply)) (st : Receive)
    {a : Nat} (h : ∀ d r, (d, some r) ∈ frames → d.serves .input = true → d.block.Contains a →
      r.memory a = st.image a) :
    (frames.foldl (fun st f => receiveFrame st f.1 f.2) st).image a = st.image a := by
  induction frames generalizing st with
  | nil => rfl
  | cons f frames ih =>
      obtain ⟨d, r⟩ := f
      have hstep : (receiveFrame st d r).image a = st.image a := by
        by_cases hreads : d.serves .input = true ∧ d.block.Contains a
        · cases r with
          | none => rfl
          | some r =>
              rw [receiveFrame_image_of_contains st r hreads.1 hreads.2]
              exact h d r (by simp) hreads.1 hreads.2
        · exact receiveFrame_image_of_not st d r hreads
      rw [List.foldl_cons, ih, hstep]
      intro d' r' hmem hserves hcontains
      rw [hstep]
      exact h d' r' (List.mem_cons_of_mem _ hmem) hserves hcontains

/-- An exchange leaves zero outputs zero. -/
theorem Mapping.LaysOut.outputsZero_exchange (h : m.LaysOut bus) {sent : Image} {x : Exchange}
    (hx : m.LibraryExchange sent x) (hzero : m.OutputsZero sent) : m.OutputsZero x.image := by
  obtain ⟨frames, hfst, htick, hlrw⟩ := hx
  intro s hs a ha
  unfold tickOnce at htick
  split_ifs at htick with hfits
  have himage : x.image = (ecReceiveProcessdata sent frames).1 := by
    rw [Option.some.inj htick]
  rw [himage, ← hzero s hs a ha]
  unfold ecReceiveProcessdata
  refine receive_foldl_image_of_same _ { image := sent } fun d r hmem hserves hcontains => ?_
  have hmem := List.mem_of_mem_take hmem
  have hd : d ∈ ecSendProcessdata m.group sent := by
    rw [← hfst]
    exact List.mem_map_of_mem hmem
  cases hcmd : d.cmd with
  | lrw => exact hlrw d r hmem hcmd s hs a ha hcontains
  | lwr => simp [Datagram.serves, hcmd] at hserves
  | lrd =>
      have hstart := (mem_send_lrd hd hcmd).1
      have := h.output_lt hs ha
      have := hcontains.1
      omega

end Exchange

section Startup

/-- Zeroing a zero image changes nothing. -/
theorem zeroOutputs_zeroImage (slaves : List EcSlave) :
    zeroOutputs slaves zeroImage = zeroImage := by
  unfold zeroOutputs
  induction slaves with
  | nil => rfl
  | cons s slaves ih =>
      have hstep : ∀ b, (if 0 < s.obytes then zeroImage.write b (List.replicate s.obytes 0)
          else zeroImage) = zeroImage := by
        intro b
        split_ifs
        · exact Memory.write_replicate_const 0 b s.obytes
        · rfl
      rw [List.foldl_cons]
      cases s.outputs with
      | none => exact ih
      | some b =>
          dsimp only
          rw [hstep]
          exact ih

/-- The loop that waits for OPERATIONAL sends zero outputs if it starts with them. -/
theorem opLoop_outputsZero (h : m.LaysOut bus) (env : Startup m) (chk i : Nat) (image : Image)
    (hzero : m.OutputsZero image)
    (hlib : ∀ sent x, .exchange sent x ∈ (opLoop env chk i image).trace →
      m.LibraryExchange sent x) :
    ∀ sent x, .exchange sent x ∈ (opLoop env chk i image).trace → m.OutputsZero sent := by
  have hround : ∀ i image sent x, .exchange sent x ∈ (opRound env i image).trace →
      sent = image := by
    intro i image sent x hmem
    simp [opRound] at hmem
    exact hmem.1
  induction chk generalizing i image with
  | zero =>
      intro sent x hmem
      rw [hround i image sent x hmem]
      exact hzero
  | succ chk ih =>
      unfold opLoop at hlib ⊢
      dsimp only at hlib ⊢
      split_ifs at hlib ⊢
      · intro sent x hmem
        rcases List.mem_append.mp hmem with hmem | hmem
        · rw [hround i image sent x hmem]
          exact hzero
        · refine ih (i + 1) _ (h.outputsZero_exchange (hlib image (env.opExchange i) ?_) hzero)
            (fun sent x hmem => hlib sent x (List.mem_append_right _ hmem)) sent x hmem
          exact List.mem_append_left _ (by simp [opRound])
      · intro sent x hmem
        rw [hround i image sent x hmem]
        exact hzero

/-- Until the constructor is done only zeros are sent to the outputs. -/
theorem waitTrace_sendsZero (h : m.LaysOut bus) {env : Startup m} (hfound : env.Found)
    (hlib : ∀ sent x, .exchange sent x ∈ env.waitTrace → m.LibraryExchange sent x) :
    ∀ ev ∈ env.waitTrace, Event.SendsZero m ev := by
  have hzero : m.OutputsZero (zeroOutputs m.slaves zeroImage) := by
    rw [zeroOutputs_zeroImage]
    exact fun _ _ _ _ => rfl
  have hfirst : m.OutputsZero env.firstExchange.image := by
    refine h.outputsZero_exchange (hlib _ env.firstExchange ?_) hzero
    simp [Startup.waitTrace, Startup.mapTrace, (discoverAndMap_found hfound).1]
  rintro ev hev sent x rfl
  rw [Startup.waitTrace] at hev
  rcases List.mem_append.mp hev with hmem | hmem
  · rw [(discoverAndMap_found hfound).1] at hmem
    simp [Startup.mapTrace] at hmem
    rw [hmem.1]
    exact hzero.zeroFrames
  · have hloop : .exchange sent x ∈ (opLoop env 200 0 env.firstExchange.image).trace := by
      simpa using hmem
    refine (opLoop_outputsZero h env 200 0 _ hfirst (fun sent x hmem => hlib sent x ?_) sent x
      hloop).zeroFrames
    exact List.mem_append_right _ (List.mem_cons_of_mem _ hmem)

end Startup

section Run

/-- A part of the trace without exchanges sends nothing. -/
theorem sendsZero_of_not_exchange {t : List (Event m.slaves.length)}
    (h : ∀ sent x, .exchange sent x ∉ t) : ∀ ev ∈ t, Event.SendsZero m ev := by
  rintro ev hev sent x rfl
  exact absurd hev (h sent x)

/-- A trace of zeros meets the property. -/
theorem noEarlyActuation_of_forall {e : Endian} {env : Env m}
    (h : ∀ ev ∈ (demoMain e env).trace, Event.SendsZero m ev) : NoEarlyActuation e env :=
  ⟨HoldsUntil.of_forall h, fun _ => h⟩

/-- A run that ends without a command loop sends zeros only. -/
theorem noEarlyActuation_short {bus : List SlaveInfo} {e : Endian} {env : Env m}
    (hlays : m.LaysOut bus) (hlib : LibraryRun e env) (hfound : env.Found)
    {t : List (Event m.slaves.length)} (htrace : (demoMain e env).trace = env.waitTrace ++ t)
    (ht : ∀ sent x, .exchange sent x ∉ t) : NoEarlyActuation e env := by
  refine noEarlyActuation_of_forall fun ev hev => ?_
  unfold LibraryRun at hlib
  rw [htrace] at hev hlib
  rcases List.mem_append.mp hev with hev | hev
  · exact waitTrace_sendsZero hlays hfound
      (fun sent x hmem => hlib sent x (List.mem_append_left t hmem)) ev hev
  · exact sendsZero_of_not_exchange ht ev hev

/-- A run with a command loop sends zeros until it has loaded its configuration. -/
theorem noEarlyActuation_long {bus : List SlaveInfo} {e : Endian} {env : Env m}
    (hlays : m.LaysOut bus) (hlib : LibraryRun e env) (hfound : env.Found)
    {t : List (Event m.slaves.length)} {cfg : List ActuatorCfg}
    (hload : loadCfg env.document m.slaves.length = .loaded cfg)
    (hlen : cfg.length = m.slaves.length)
    (htrace : (demoMain e env).trace = env.waitTrace ++ .loaded cfg.length :: t) :
    NoEarlyActuation e env := by
  refine ⟨?_, fun hrejected => absurd hload (hrejected cfg)⟩
  unfold LibraryRun at hlib
  rw [htrace] at hlib ⊢
  have hwait := waitTrace_sendsZero hlays hfound
    fun sent x hmem => hlib sent x (List.mem_append_left _ hmem)
  refine HoldsUntil.append hwait (HoldsUntil.cons_stop ?_ ?_ t)
  · rintro sent x hev
    cases hev
  · rw [hlen]

/-- A configuration that is loaded comes from an accepted document. -/
theorem Env.Counted.length_eq {env : Env m} (h : env.Counted) (hargc : 3 ≤ env.argc)
    (hfound : env.Found) (hreads : env.ReadsOperational) {cfg : List ActuatorCfg}
    (hload : loadCfg env.document m.slaves.length = .loaded cfg) :
    cfg.length = m.slaves.length := by
  obtain ⟨entries, hdoc, hsize, hentries⟩ := loadCfg_loaded_iff.mp hload
  rw [loadEntries_length hentries]
  exact h hargc hfound hreads entries ⟨hdoc, hsize, by simp [hentries]⟩

/-- On every bus and in every run of the library, zeros are sent until the configuration is
accepted, provided that an accepted document has one entry for each slave. -/
theorem noEarlyActuation_of_counted {e : Endian} {env : Env m} (hlays : m.LaysOut bus)
    (hkept : m.slaveCount = m.slaves.length) (hlib : LibraryRun e env) (hcount : env.Counted) :
    NoEarlyActuation e env := by
  rcases demoMain_cases e env with ⟨_, htrace⟩ | ⟨_, _, htrace⟩ |
    ⟨hargc, hfound, hreads, hcompletion⟩
  · refine noEarlyActuation_of_forall fun ev hev => ?_
    rw [htrace] at hev
    cases hev
  · rcases ethercatMaster_cases env.toStartup with ⟨_, hmaster, _⟩ | ⟨_, _, hmaster, _⟩ |
      ⟨_, hconfig, hlost, _⟩ | ⟨hfound, _, hmaster, _⟩ | ⟨hfound, _, hmaster, _⟩
    · refine noEarlyActuation_of_forall (sendsZero_of_not_exchange ?_)
      rw [htrace, hmaster]
      simp
    · refine noEarlyActuation_of_forall (sendsZero_of_not_exchange ?_)
      rw [htrace, hmaster]
      simp
    · have hlen := env.slavecount hconfig
      omega
    · exact noEarlyActuation_short hlays hlib hfound (htrace.trans hmaster) (by simp)
    · rw [hmaster, ← List.append_nil env.waitTrace] at htrace
      exact noEarlyActuation_short hlays hlib hfound htrace (by simp)
  · cases hcompletion with
    | threw _ htrace =>
        exact noEarlyActuation_short hlays hlib hfound htrace (by simp [destroyMaster])
    | exited _ _ _ htrace =>
        rw [← List.append_nil env.waitTrace] at htrace
        exact noEarlyActuation_short hlays hlib hfound htrace (by simp)
    | done cfg hload _ htrace =>
        rw [List.append_assoc, List.cons_append] at htrace
        exact noEarlyActuation_long hlays hlib hfound hload
          (hcount.length_eq hargc hfound hreads hload) htrace
    | fault cfg hload _ htrace =>
        exact noEarlyActuation_long hlays hlib hfound hload
          (hcount.length_eq hargc hfound hreads hload) htrace

end Run

section Surplus

/-- The control word of a slave reaches its output area, if the area has a byte for it. -/
theorem writeCommands_controlword (h : m.LaysOut bus) {e : Endian}
    {cmds : Fin m.slaves.length → ActuatorCommand} {image sent : Image}
    (hw : writeCommands e m.slaves cmds image = some sent) {k : Fin m.slaves.length}
    (hlen : 11 ≤ (m.slaves.get k).obytes) :
    ∃ a ∈ (m.slaves.get k).area .output, sent a = (cmds k).controlword := by
  have hout : m.HasOutputs := (writeCommands_isSome_iff e image cmds).mp (by rw [hw]; rfl)
  choose off hoff using fun k => Option.ne_none_iff_exists'.mp (hout k)
  rw [writeCommands_eq e m.slaves cmds image off hoff, Option.some.injEq] at hw
  subst hw
  obtain ⟨_, hfield⟩ := h.field .output k
  obtain ⟨_, hwhole, _⟩ := hfield.wholeBytes (h.bytes (List.get_mem m.slaves k) .output)
    (lt_of_lt_of_le (by omega) hlen)
  obtain ⟨before, after, hsplit⟩ := List.append_of_mem (List.mem_finRange k)
  have hlater : ∀ j ∈ after, k < j := by
    have hsorted := List.pairwise_lt_finRange m.slaves.length
    rw [hsplit] at hsorted
    exact (List.pairwise_cons.mp (List.pairwise_append.mp hsorted).2.1).1
  have hlast : 10 < (commandBytes (cmds k)).length := by
    rw [commandBytes_length]
    decide
  refine ⟨off k + 10, (hwhole.area _).mpr ?_, ?_⟩
  · rw [Option.some.inj (hwhole.base.symm.trans (hoff k))]
    exact ⟨by omega, Nat.add_lt_add_left hlen _⟩
  · rw [hsplit, Memory.foldl_write_of_later off _ before after image hlast fun j hj => ?_,
      commandBytes_controlword]
    have hle := h.outputs_ordered (hlater j hj) (by omega) (hoff k) (hoff j)
    rintro ⟨h₁, _⟩
    omega

/-- The first frames of the command loop carry the fault reset. -/
theorem first_not_zeroFrames (h : m.LaysOut bus) (hseg : m.group.Segmented) {e : Endian}
    {cfg : Fin m.slaves.length → ActuatorCfg} {image sent : Image}
    (hw : writeCommands e m.slaves (demoInit cfg).cmds image = some sent) {k : Fin m.slaves.length}
    (hlen : 11 ≤ (m.slaves.get k).obytes) : ¬ m.ZeroFrames sent := by
  intro hzero
  obtain ⟨a, ha, hbyte⟩ := writeCommands_controlword h hw hlen
  have hcmd : ((demoInit cfg).cmds k).controlword = cwFaultReset :=
    congrArg ActuatorCommand.controlword (congrArg Prod.fst (demoInit_cell cfg k))
  have hmem := List.get_mem m.slaves k
  obtain ⟨d, hd, hserves, hcontains⟩ :=
    hseg.exists_datagram sent .output (Nat.zero_le a) (h.output_lt hmem ha)
  have hdata := hzero d hd _ hmem a ha hcontains
  obtain ⟨h₁, h₂⟩ := hcontains
  have hlt : a - d.block.start < d.block.len := by omega
  rw [mem_send_data hd hserves] at hdata
  simp [Memory.read, hlt, Nat.add_sub_cancel' h₁, hbyte, hcmd, cwFaultReset] at hdata

/-- A run that accepts a document with another number of entries sends them. -/
theorem not_noEarlyActuation (h : m.LaysOut bus) (hseg : m.group.Segmented) {e : Endian}
    {env : Env m} (hargc : 3 ≤ env.argc) (hfound : env.Found) (hreads : env.ReadsOperational)
    {cfg : List ActuatorCfg} (hload : loadCfg env.document m.slaves.length = .loaded cfg)
    (hne : cfg.length ≠ m.slaves.length) (hout : m.HasOutputs) {k : Fin m.slaves.length}
    (hlen : 11 ≤ (m.slaves.get k).obytes) : ¬ NoEarlyActuation e env := by
  intro hearly
  obtain ⟨t, htrace, _⟩ := demoMain_loaded e hargc hfound hreads hload
  obtain ⟨sent, hsent⟩ := Option.isSome_iff_exists.mp ((writeCommands_isSome_iff e
    (opLoop env.toStartup 200 0 env.firstExchange.image).value.1
      (demoInit (cfgAt cfg)).cmds).mpr hout)
  obtain ⟨rest, hrest⟩ := commandLoop_head e env (cfgAt cfg) (show 0 < 10000 by decide) hsent
  have hsplit : (demoMain e env).trace = (env.waitTrace ++ [.loaded cfg.length]) ++
      .exchange sent (env.loopExchange 0) :: (rest ++ t) := by
    rw [htrace, Env.mainLoop, hrest]
    simp
  refine first_not_zeroFrames h hseg hsent hlen
    (hearly.1 _ _ _ hsplit (fun ev hev => ?_) sent _ rfl)
  rcases List.mem_append.mp hev with hev | hev
  · rintro rfl
    rcases mem_waitTrace hfound hev with hwaiting | hcall
    · exact hwaiting
    · simp at hcall
  · intro heq
    rw [List.mem_singleton.mp hev] at heq
    exact hne (Event.loaded.inj heq)

/-- In every run of the library on a bus whose image fits the buffer, zeros are sent until
the configuration is accepted, provided that an accepted document has one entry for each
slave. On a bus with an output pointer for every slave, and with a control word in the
outputs of some slave, nothing less than that will do. -/
theorem noEarlyActuation_counted (bus : List SlaveInfo) (m : Mapping)
    (h : ecConfigMap bus = some m) (hfits : imageBytes bus ≤ ioMapSize) (e : Endian) (env : Env m)
    (hlib : LibraryRun e env) :
    (env.Counted → NoEarlyActuation e env) ∧
      (m.HasOutputs → (∃ s ∈ m.slaves, 11 ≤ s.obytes) →
        NoEarlyActuation e env → env.Counted) := by
  have hlays := ecConfigMap_laysOut h
  refine ⟨noEarlyActuation_of_counted hlays (hlays.slaveCount_eq hfits) hlib, ?_⟩
  rintro hout ⟨s, hs, hlen⟩ hearly hargc hfound hreads entries ⟨hdoc, hsize, hentries⟩
  obtain ⟨k, rfl⟩ := List.mem_iff_get.mp hs
  obtain ⟨cfg, hcfg⟩ := Option.isSome_iff_exists.mp hentries
  have hload := loadCfg_loaded_iff.mpr ⟨entries, hdoc, hsize, hcfg⟩
  by_contra hne
  rw [← loadEntries_length hcfg] at hne
  exact not_noEarlyActuation hlays (hlays.segmented hfits) hargc hfound hreads hload hne hout
    hlen hearly

end Surplus

section Lost

/-- A library exchange in which every frame is lost leaves the image as it is. -/
theorem libraryExchange_lost {sent : Image}
    (hfits : ∀ d ∈ ecSendProcessdata m.group sent, d.FitsBuffer) :
    m.LibraryExchange sent ⟨sent, ecNoFrame⟩ := by
  have hlost : ∀ (ds : List Datagram) (st : Receive),
      (ds.map fun d => (d, none)).foldl (fun st f => receiveFrame st f.1 f.2) st = st := by
    intro ds
    induction ds with
    | nil => exact fun st => rfl
    | cons d ds ih => exact fun st => ih st
  refine ⟨(ecSendProcessdata m.group sent).map fun d => (d, none), ?_, ?_, ?_⟩
  · rw [List.map_map]
    exact List.map_id _
  · rw [tickOnce, if_pos]
    · unfold ecReceiveProcessdata
      rw [← List.map_take, hlost]
      rfl
    · intro f hf
      obtain ⟨d, hd, rfl⟩ := List.mem_map.mp hf
      exact hfits d hd
  · intro d r hmem
    obtain ⟨_, _, heq⟩ := List.mem_map.mp hmem
    cases heq

/-- The image after some iterations that write the same commands, if no frame comes back. -/
def lostImage (m : Mapping) (cmds : Fin m.slaves.length → ActuatorCommand) : Nat → Image
  | 0 => zeroImage
  | i + 1 => (writeCommands .little m.slaves cmds (lostImage m cmds i)).getD zeroImage

/-- A run with a prompt start-up in which no process-data frame ever comes back. -/
def lostEnv (m : Mapping) (document : Document) (cfg : List ActuatorCfg) : Env m :=
  { promptStartup m with
    argc := 3
    loopExchange := fun i => ⟨lostImage m (demoInit (cfgAt cfg)).cmds (i + 1), ecNoFrame⟩
    document := document }

variable {document : Document} {cfg : List ActuatorCfg}

/-- In this run the command loop writes the first commands again and again. -/
theorem commandLoop_lost (left i : Nat) (s : DemoState m.slaves.length)
    (hs : s.cmds = (demoInit (cfgAt cfg)).cmds) :
    ∀ sent x, .exchange sent x ∈ (commandLoop .little (lostEnv m document cfg) (cfgAt cfg) left i
        (lostImage m (demoInit (cfgAt cfg)).cmds i) s).trace → x = ⟨sent, ecNoFrame⟩ := by
  have hrejected : ¬ m.group.expectedWKC ≤ ecNoFrame := by
    unfold EcGroup.expectedWKC ecNoFrame
    omega
  induction left generalizing i s with
  | zero => simp [commandLoop]
  | succ left ih =>
      intro sent x hmem
      cases hw : writeCommands .little m.slaves s.cmds (lostImage m (demoInit (cfgAt cfg)).cmds i)
        with
      | none => simp [commandLoop, iteration, hw] at hmem
      | some next =>
          have hnext : lostImage m (demoInit (cfgAt cfg)).cmds (i + 1) = next := by
            rw [hs] at hw
            rw [lostImage, hw, Option.getD_some]
          have hiter : iteration .little m (cfgAt cfg) ((lostEnv m document cfg).loopExchange i)
              (lostImage m (demoInit (cfgAt cfg)).cmds i) s =
                ⟨[.exchange next ⟨next, ecNoFrame⟩], some s⟩ := by
            unfold iteration
            rw [hw]
            simp [lostEnv, hnext, hrejected]
          unfold commandLoop at hmem
          rw [hiter] at hmem
          rcases List.mem_append.mp hmem with hmem | hmem
          · cases List.mem_singleton.mp hmem
            rfl
          · exact ih (i + 1) s hs sent x hmem

theorem promptStartup_exchanges (hcount : 0 < m.slaveCount) :
    ∀ sent x, .exchange sent x ∈ (promptStartup m).waitTrace → x = ⟨sent, ecNoFrame⟩ := by
  intro sent x hmem
  rw [Startup.waitTrace, promptStartup_opLoop (hcount.trans_le m.slaveCount_le),
    (discoverAndMap_found (promptStartup_reads hcount).1).1, Startup.mapTrace,
    zeroOutputs_zeroImage] at hmem
  simp [opRound, promptStartup] at hmem
  rw [hmem.1, hmem.2]

/-- It is a run of the library if all datagrams fit their buffers. -/
theorem lostEnv_libraryRun (hcount : 0 < m.slaveCount)
    (hload : loadCfg document m.slaves.length = .loaded cfg)
    (hfits : ∀ sent, ∀ d ∈ ecSendProcessdata m.group sent, d.FitsBuffer) :
    LibraryRun .little (lostEnv m document cfg) := by
  obtain ⟨hfound, hreads⟩ := promptStartup_reads hcount
  have hargc : 3 ≤ (lostEnv m document cfg).argc := le_refl 3
  obtain ⟨t, htrace, ht⟩ := demoMain_loaded .little hargc hfound hreads hload
  have hloop : (lostEnv m document cfg).mainLoop .little cfg =
      commandLoop .little (lostEnv m document cfg) (cfgAt cfg) 10000 0 zeroImage
        (demoInit (cfgAt cfg)) := by
    unfold Env.mainLoop
    rw [show (lostEnv m document cfg).toStartup = promptStartup m from rfl,
      promptStartup_opLoop (hcount.trans_le m.slaveCount_le)]
    rfl
  rw [hloop] at htrace
  intro sent x hmem
  have hlost : x = ⟨sent, ecNoFrame⟩ := by
    rw [htrace] at hmem
    rcases List.mem_append.mp hmem with hmem | hmem
    · rcases List.mem_append.mp hmem with hmem | hmem
      · exact promptStartup_exchanges hcount sent x hmem
      · rcases List.mem_cons.mp hmem with hmem | hmem
        · cases hmem
        · exact commandLoop_lost 10000 0 _ rfl sent x hmem
    · exact absurd (ht hmem) (by simp [destroyMaster])
  rw [hlost]
  exact libraryExchange_lost (hfits sent)

end Lost

section OneDrive

/-- One drive on the bus has 16 output bytes, and its datagrams fit. -/
theorem oneDrive_mapping {m : Mapping} (h : ecConfigMap [driveSlave] = some m) :
    m.slaves.length = 1 ∧ m.slaveCount = 1 ∧ m.HasOutputs ∧
      (∃ k, 11 ≤ (m.slaves.get k).obytes) ∧
      ∀ sent, ∀ d ∈ ecSendProcessdata m.group sent, d.FitsBuffer := by
  have hmap : ((ecConfigMap [driveSlave]).map fun m =>
      (m.slaves.length, m.slaves.all fun s => s.outputs.isSome && decide (11 ≤ s.obytes))) =
        some (1, true) := by decide +kernel
  rw [h, Option.map_some, Option.some.injEq, Prod.mk.injEq] at hmap
  obtain ⟨hlen, hall⟩ := hmap
  have hlays := ecConfigMap_laysOut h
  have hfits : imageBytes [driveSlave] ≤ ioMapSize := by decide +kernel
  have himage : m.group.obytes + m.group.ibytes = 29 := hlays.image.trans (by decide +kernel)
  have hslave : ∀ k, (m.slaves.get k).outputs ≠ none ∧ 11 ≤ (m.slaves.get k).obytes := by
    intro k
    have hk := List.all_eq_true.mp hall _ (List.get_mem m.slaves k)
    obtain ⟨hout, hbytes⟩ := Bool.and_eq_true_iff.mp hk
    exact ⟨Option.isSome_iff_ne_none.mp hout, of_decide_eq_true hbytes⟩
  refine ⟨hlen, (hlays.slaveCount_eq hfits).trans hlen, fun k => (hslave k).1,
    ⟨⟨0, by omega⟩, (hslave _).2⟩, fun sent d hd => ?_⟩
  have := (hlays.segmented hfits).datagram_le hd
  unfold Datagram.FitsBuffer Datagram.frameLength ecMaxEcatFrame ecFirstDcDatagram
  split_ifs <;> omega

/-- With one drive and one entry nothing is sent too early. -/
theorem noEarlyActuation_one_drive :
    ∃ m cfg, ecConfigMap [driveSlave] = some m ∧
      NoEarlyActuation .little (lostEnv m (.sequence [{}] true) cfg) := by
  have hmap : (ecConfigMap [driveSlave]).isSome = true := by decide +kernel
  obtain ⟨m, hm⟩ := Option.isSome_iff_exists.mp hmap
  obtain ⟨hlen, hcount, _, _, hfits⟩ := oneDrive_mapping hm
  obtain ⟨cfg, hload, _⟩ := loadCfg_empty_entries
    (show intOfSize 1 = (m.slaves.length : Int) by rw [hlen]; decide)
  refine ⟨m, cfg, hm, (noEarlyActuation_counted _ m hm (by decide +kernel) .little _
    (lostEnv_libraryRun (by omega) hload hfits)).1 fun _ _ _ entries haccepted => ?_⟩
  cases haccepted.1
  exact hlen.symm

/-- A document with as many entries as an `int` cannot tell from one, on a host with memory
for them. -/
def surplusEntries : Document := .sequence (List.replicate (2 ^ 32 + 1) {}) true

/-- With one drive on the bus this document is accepted, and the drive is sent commands
although `load_cfg` has not returned one entry for each slave. -/
theorem surplus_entries_actuate :
    ∃ m, ecConfigMap [driveSlave] = some m ∧ ∃ env : Env m, env.document = surplusEntries ∧
      LibraryRun .little env ∧ ¬ NoEarlyActuation .little env := by
  have hmap : (ecConfigMap [driveSlave]).isSome = true := by decide +kernel
  obtain ⟨m, hm⟩ := Option.isSome_iff_exists.mp hmap
  obtain ⟨hlen, hcount, hout, ⟨k, hbytes⟩, hfits⟩ := oneDrive_mapping hm
  have hlays := ecConfigMap_laysOut hm
  have hsize : intOfSize (2 ^ 32 + 1) = (m.slaves.length : Int) := by
    rw [hlen]
    decide
  obtain ⟨cfg, hload, hcfg⟩ := loadCfg_empty_entries hsize
  obtain ⟨hfound, hreads⟩ := promptStartup_reads (m := m) (by omega)
  refine ⟨m, hm, lostEnv m surplusEntries cfg, rfl, lostEnv_libraryRun (by omega) hload hfits,
    not_noEarlyActuation hlays (hlays.segmented (by decide +kernel)) (le_refl 3) hfound hreads
      hload ?_ hout hbytes⟩
  rw [hcfg, hlen]
  decide

end OneDrive

end RaipalSoem
