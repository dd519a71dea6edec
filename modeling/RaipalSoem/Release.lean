import RaipalSoem.Demo

/-!
# Releasing the bus

The destructor of the master requests INIT and closes the socket. It runs when `main`
is left by a return or by an exception behind the constructor. It does not run when the
constructor itself throws, when `load_cfg` calls `std::exit`, and when the process dies.
The constructor closes the socket before it throws, except when the slave count is lost.
-/

namespace RaipalSoem

open Lib

variable {m : Mapping}

/-- Every broadcast of the OPERATIONAL request is followed by one of the INIT request, and
a socket that was opened is closed once, by the last action of all. -/
def OrderlyRelease (e : Endian) (env : Env m) : Prop :=
  FollowedBy (· = .writeState ecStateOperational) (· = .writeState ecStateInit)
      (demoMain e env).trace ∧
    (.init ∈ (demoMain e env).trace → env.ecInit ≠ 0 →
      EndsOnceWith (· = .close) (demoMain e env).trace)

/-- No iteration of the command loop uses a null pointer. -/
def Env.NoNullAccess (env : Env m) : Prop :=
  ∀ j < 10000, m.HasOutputs ∧
    (m.group.expectedWKC ≤ (env.loopExchange j).wkc → m.HasInputs)

/-- The runs that release the bus: the OPERATIONAL request is never sent, or the slaves
are seen to reach the state, `load_cfg` does not exit, and no null pointer is used. -/
def Env.Releases (env : Env m) : Prop :=
  env.argc < 3 ∨ ¬ env.Found ∨
    (env.ReadsOperational ∧ ¬ env.document.Exits m.slaves.length ∧
      ∀ cfg, loadCfg env.document m.slaves.length = .loaded cfg → env.NoNullAccess)

/-- Up to the end of the waiting loop nothing requests INIT and nothing closes. -/
theorem waitTrace_quiet {env : Startup m} (h : env.Found) :
    .writeState ecStateOperational ∈ env.waitTrace ∧
      ∀ ev ∈ env.waitTrace, ev ≠ .writeState ecStateInit ∧ ev ≠ .close := by
  have hop : ecStateOperational ≠ ecStateInit := by decide
  refine ⟨by simp [Startup.waitTrace], fun ev hev => ?_⟩
  rcases mem_waitTrace h hev with hwaiting | hcall
  · constructor <;> rintro rfl <;> exact hwaiting
  · constructor <;> rintro rfl <;> simp [hop.symm] at hcall

section Traces

variable {e : Endian} {env : Env m} {t : List (Event m.slaves.length)}

/-- A trace that ends with the destructor is orderly. -/
theorem orderlyRelease_of_destroy (h : env.Found) (hquiet : ∀ ev ∈ t, ev ≠ .close)
    (htrace : (demoMain e env).trace = env.waitTrace ++ t ++ destroyMaster _) :
    OrderlyRelease e env := by
  have hop : ecStateInit ≠ ecStateOperational := by decide
  refine ⟨?_, fun _ _ => ?_⟩
  · rw [htrace]
    refine FollowedBy.append (FollowedBy.of_forall_not ?_) ?_ _
    · simp [destroyMaster, hop]
    · exact ⟨.writeState ecStateInit, by simp [destroyMaster], rfl⟩
  · have hsplit : (demoMain e env).trace =
        (env.waitTrace ++ t ++ [.writeState ecStateInit]) ++ [.close] := by
      rw [htrace]
      simp [destroyMaster]
    rw [hsplit]
    refine EndsOnceWith.append_singleton (fun ev hev => ?_) rfl
    rcases List.mem_append.mp hev with hev | hev
    · rcases List.mem_append.mp hev with hev | hev
      · exact ((waitTrace_quiet h).2 ev hev).2
      · exact hquiet ev hev
    · rw [List.mem_singleton.mp hev]
      simp

/-- A trace in which nothing behind the waiting loop requests INIT is not. -/
theorem not_orderlyRelease (h : env.Found) (hquiet : ∀ ev ∈ t, ev ≠ .writeState ecStateInit)
    (htrace : (demoMain e env).trace = env.waitTrace ++ t) : ¬ OrderlyRelease e env := by
  rintro ⟨hfollowed, _⟩
  rw [htrace] at hfollowed
  refine hfollowed.forall_not ?_ _ (List.mem_append_left t (waitTrace_quiet h).1) rfl
  intro ev hev
  rcases List.mem_append.mp hev with hev | hev
  · exact ((waitTrace_quiet h).2 ev hev).1
  · exact hquiet ev hev

/-- What the command loop does is neither a state request nor a close. -/
theorem mainLoop_quiet (cfg : List ActuatorCfg) :
    ∀ ev ∈ .loaded cfg.length :: (env.mainLoop e cfg).trace,
      ev ≠ .writeState ecStateInit ∧ ev ≠ .close := by
  intro ev hev
  rcases List.mem_cons.mp hev with rfl | hev
  · simp
  · obtain ⟨sent, x, rfl⟩ := commandLoop_exchanges _ _ _ _ _ _ _ ev hev
    simp

/-- The command loop runs to its end unless a null pointer is used. -/
theorem mainLoop_completes_iff (cfg : List ActuatorCfg) :
    (env.mainLoop e cfg).value = true ↔ env.NoNullAccess := by
  unfold Env.mainLoop Env.NoNullAccess
  rw [commandLoop_completes_iff]
  simp only [Nat.zero_add]

end Traces

/-- A run that loses the slave count to the outputs does not close the socket. -/
theorem not_orderlyRelease_of_slaveCount {e : Endian} {env : Env m} (hargc : 3 ≤ env.argc)
    (hinit : env.ecInit ≠ 0) (hconfig : 0 < env.ecConfigInit) (hcount : m.slaveCount = 0) :
    ¬ OrderlyRelease e env := by
  have htrace : (demoMain e env).trace = env.mapTrace := by
    rcases demoMain_cases e env with ⟨h, _⟩ | ⟨_, _, h⟩ | ⟨_, hfound, _⟩
    · omega
    · rw [h, ethercatMaster, (discoverAndMap_configured hinit hconfig).2, if_neg (by omega)]
      exact (discoverAndMap_configured hinit hconfig).1
    · exact absurd hcount hfound.2.2.ne'
  rintro ⟨_, hclose⟩
  rw [htrace] at hclose
  obtain ⟨before, last, heq, rfl, _⟩ := hclose (by simp [Startup.mapTrace]) hinit
  have hmem : .close ∈ env.mapTrace := by
    rw [heq]
    simp
  simp [Startup.mapTrace] at hmem

/-- A prompt start-up, with exchanges that bring nothing back. -/
def promptEnv (m : Mapping) (document : Document) : Env m :=
  { promptStartup m with
    argc := 3
    loopExchange := fun _ => ⟨zeroImage, ecNoFrame⟩
    document := document }

end RaipalSoem
