import Haze.Runtime.Invariant

/-!
# The device's parameters

The ring dimension, the size of an allocation, the moduli and the twiddle generators. The table of
moduli has no gaps and no zeros, so that `Config.modulus` is zero at an index exactly when the table
does not reach it. Once the device is configured every parameter stays until the next reset: the
setters then accept only what is stored. A configuration call that fails changes nothing at all.
-/

namespace Haze

open World

variable {P M : Type}

/-! ## The setters -/

/-- A call that sets a parameter of the device. -/
inductive Setter where
  | ringDimension (n : UInt64)
  | modulus (index : ℤ) (q : UInt64)
  | twiddle (index : ℤ) (generator : UInt64)

namespace Setter

/-- The call. -/
def call : Setter → Call
  | .ringDimension n => .setRingDimension n
  | .modulus index q => .config (.setCiphertextModulus index q)
  | .twiddle index generator => .config (.setTwiddleFactors index generator)

/-- The value is the one that is stored. -/
def Repeats (c : Config) : Setter → Prop
  | .ringDimension n => c.ringDim = n
  | .modulus index q => 0 ≤ index ∧ c.moduli[index.toNat]? = some q
  | .twiddle index generator => 0 ≤ index ∧ c.twiddleGenerators[index.toNat]? = some generator

end Setter

/-- The calls that change the configuration, a reset apart. -/
def Call.Configures : Call → Prop
  | .setRingDimension _ => True
  | .config _ => True
  | _ => False

namespace Config

/-- The table of moduli has no zero. -/
def Dense (c : Config) : Prop := ∀ q ∈ c.moduli, q ≠ 0

/-- In a table without zeros, only an index that the table does not reach has none. -/
theorem Dense.modulus_eq_zero {c : Config} (h : c.Dense) (i : ℤ) :
    c.modulus i = 0 ↔ i < 0 ∨ (c.moduli.length : ℤ) ≤ i := by
  unfold modulus
  split_ifs with hneg
  · exact iff_of_true rfl (.inl hneg)
  rw [List.getD_eq_getElem?_getD]
  by_cases hlen : i.toNat < c.moduli.length
  · rw [List.getElem?_eq_getElem hlen, Option.getD_some]
    exact iff_of_false (h _ (List.getElem_mem hlen)) (by omega)
  · rw [List.getElem?_eq_none (by omega), Option.getD_none]
    exact iff_of_true rfl (by omega)

/-- Setting a modulus adds no zero. -/
theorem Dense.setModulus {c : Config} (h : c.Dense) (i : ℤ) (q : UInt64) :
    (setModulus i q c).2.Dense := by
  unfold Config.setModulus
  split_ifs with hneg hzero <;> try exact h
  · intro r hr
    rcases List.mem_append.mp hr with hr | hr
    · exact h r hr
    · rw [List.mem_singleton.mp hr]
      exact hzero
  · intro r hr
    rcases List.mem_or_eq_of_mem_set hr with hr | rfl
    · exact h r hr
    · exact hzero

/-- Setting a modulus is an error that changes nothing, or a success; on a configured device that
is a success exactly for the stored one, and nothing changes either. -/
theorem setModulus_cases (i : ℤ) (q : UInt64) (c : Config) :
    ((∃ e, (setModulus i q c).1 = .error e) → (setModulus i q c).2 = c) ∧
      (c.configured → (setModulus i q c).2 = c ∧
        ((setModulus i q c).1 = .ok () → 0 ≤ i ∧ c.moduli[i.toNat]? = some q)) := by
  unfold setModulus
  split_ifs with hneg hzero hconf hsame <;> simp_all

/-- The setter of a generator changes no modulus, and nothing at all when it fails. -/
theorem setTwiddleGenerator_cases (i : ℤ) (g : UInt64) (c : Config) :
    ((∃ e, (setTwiddleGenerator i g c).1 = .error e) → (setTwiddleGenerator i g c).2 = c) ∧
      (setTwiddleGenerator i g c).2.moduli = c.moduli ∧
      (c.configured → (setTwiddleGenerator i g c).2 = c ∧
        ((setTwiddleGenerator i g c).1 = .ok () → 0 ≤ i ∧ c.twiddleGenerators[i.toNat]? = some g)) := by
  unfold setTwiddleGenerator
  split_ifs with hneg hconf hsame <;> simp_all

/-- The parameters of the device are the same, and both are configured. -/
structure Frozen (c d : Config) : Prop where
  configured : d.configured = true
  ringDim : d.ringDim = c.ringDim
  moduli : d.moduli = c.moduli
  twiddle : d.twiddleGenerators = c.twiddleGenerators

end Config

/-! ## Configuration calls -/

/-- What is asked of a method of the configuration. -/
structure Config.Setting (x : Config.Method Unit) : Prop where
  /-- A failure changes nothing. -/
  failure : ∀ c, (∃ e, (x c).1 = .error e) → (x c).2 = c
  dense : ∀ c, c.Dense → (x c).2.Dense
  frozen : ∀ c : Config, c.configured = true → c.Frozen (x c).2

namespace Config.Setting

/-- A setter that fails sets nothing. -/
theorem fail (e : HazeInternalError) : Config.Setting (Expected.fail e) where
  failure _ _ := rfl
  dense _ h := h
  frozen _ h := ⟨h, rfl, rfl, rfl⟩

/-- A method that succeeds and leaves the parameters. -/
theorem modify {f : Config → Config} (hf : ∀ c, (f c).ringDim = c.ringDim ∧
    (f c).moduli = c.moduli ∧ (f c).twiddleGenerators = c.twiddleGenerators ∧
    (c.configured = true → (f c).configured = true)) :
    Config.Setting (Expected.modify f) where
  failure c h := by
    obtain ⟨e, he⟩ := h
    cases he
  dense c h := by
    change (f c).Dense
    rw [Dense, (hf c).2.1]
    exact h
  frozen c h := ⟨(hf c).2.2.2 h, (hf c).1, (hf c).2.1, (hf c).2.2.1⟩

/-- Configuring the device is a setting. -/
theorem configureDevice : Config.Setting Config.configureDevice where
  failure c h := by
    unfold Config.configureDevice at h ⊢
    split_ifs at h ⊢ with hn
    · rfl
    · obtain ⟨e, he⟩ := h
      cases he
  dense c h := by
    unfold Config.configureDevice
    split_ifs <;> exact h
  frozen c h := by
    unfold Config.configureDevice
    split_ifs
    · exact ⟨h, rfl, rfl, rfl⟩
    · exact ⟨rfl, rfl, rfl, rfl⟩

end Config.Setting

/-- Every configuration call runs a method of the configuration. -/
theorem ConfigCall.run_setting (call : ConfigCall) :
    ∃ x : Config.Method Unit, (call.run : Shim P M) = Shim.setInternalResult (onConfig x) ∧
      Config.Setting x := by
  -- Each setter is a change of the configuration alone.
  cases call with
  | setCiphertextModulus index modulus =>
    refine ⟨_, rfl, fun c => (Config.setModulus_cases index modulus c).1,
      fun c h => h.setModulus index modulus, fun c h => ?_⟩
    rw [((Config.setModulus_cases index modulus c).2 h).1]
    exact ⟨h, rfl, rfl, rfl⟩
  | setTwiddleFactors index generator =>
    refine ⟨_, rfl, fun c => (Config.setTwiddleGenerator_cases index generator c).1,
      fun c h => ?_, fun c h => ?_⟩
    · rw [Config.Dense, (Config.setTwiddleGenerator_cases index generator c).2.1]
      exact h
    · rw [((Config.setTwiddleGenerator_cases index generator c).2.2 h).1]
      exact ⟨h, rfl, rfl, rfl⟩
  | configureDevice => exact ⟨_, rfl, .configureDevice⟩
  | setProgramInfo name version description =>
    refine ⟨_, rfl, ?_⟩
    -- The strings are refused one after the other, as null pointers.
    rcases name with _ | name
    · exact .fail _
    rcases version with _ | version
    · exact .fail _
    rcases description with _ | description
    · exact .fail _
    · exact .modify fun c => ⟨rfl, rfl, rfl, id⟩
  | setTarget target =>
    refine ⟨_, rfl, ?_⟩
    rcases target with _ | target
    · exact .fail _
    · exact .modify fun c => ⟨rfl, rfl, rfl, id⟩
  | setProgramDirectory dir =>
    refine ⟨_, rfl, ?_⟩
    rcases dir with _ | dir
    · exact .fail _
    · exact .modify fun c => ⟨rfl, rfl, rfl, id⟩
  | setMontgomery enable =>
    exact ⟨Expected.modify fun c => { c with montgomery := enable != 0 }, rfl,
      .modify fun c => ⟨rfl, rfl, rfl, id⟩⟩
  | setBitReversal enable =>
    exact ⟨Expected.modify fun c => { c with bitReversal := enable != 0 }, rfl,
      .modify fun c => ⟨rfl, rfl, rfl, id⟩⟩
  | setReducedNoise enable =>
    exact ⟨Expected.modify fun c => { c with reducedNoise := enable != 0 }, rfl,
      .modify fun c => ⟨rfl, rfl, rfl, id⟩⟩

/-- A modulus that is configured after a configuration call was so before, or is the one that it
sets. -/
theorem ConfigCall.mem_moduli {call : ConfigCall} {w : World P M} {q : UInt64}
    (h : q ∈ (call.run w).2.config.moduli) :
    q ∈ w.config.moduli ∨ (q ≠ 0 ∧ ∃ index, call = .setCiphertextModulus index q) := by
  have hrun : ∀ x : Config.Method Unit,
      (Shim.setInternalResult (onConfig x) w : Reply × World P M).2.config = (x w.config).2 :=
    fun x => congrArg World.config (Shim.replyWith_state _ _ w)
  cases call with
  | setCiphertextModulus index modulus =>
    have hset : q ∈ (Config.setModulus index modulus w.config).2.moduli := (hrun _).symm ▸ h
    unfold Config.setModulus at hset
    -- The checks of the index and the modulus, then an entry that is new or replaced.
    split_ifs at hset with hneg hzero
    · exact .inl hset
    · exact .inl hset
    · exact .inl hset
    · exact .inl hset
    · exact .inl hset
    · rcases List.mem_append.mp hset with hq | hq
      · exact .inl hq
      · rw [List.mem_singleton.mp hq]
        exact .inr ⟨hzero, index, rfl⟩
    · rcases List.mem_or_eq_of_mem_set hset with hq | rfl
      · exact .inl hq
      · exact .inr ⟨hzero, index, rfl⟩
  | setTwiddleFactors index generator =>
    have hset : q ∈ (Config.setTwiddleGenerator index generator w.config).2.moduli :=
      (hrun _).symm ▸ h
    -- The generators stand in a list of their own.
    rw [(Config.setTwiddleGenerator_cases index generator w.config).2.1] at hset
    exact .inl hset
  | configureDevice =>
    have hset : q ∈ (Config.configureDevice w.config).2.moduli := (hrun _).symm ▸ h
    unfold Config.configureDevice at hset
    split_ifs at hset <;> exact .inl hset
  | setProgramInfo name version description =>
    rcases name with _ | name
    · exact .inl h
    rcases version with _ | version
    · exact .inl h
    rcases description with _ | description <;> exact .inl h
  | setTarget target => rcases target with _ | target <;> exact .inl h
  | setProgramDirectory dir => rcases dir with _ | dir <;> exact .inl h
  | setMontgomery enable => exact .inl h
  | setBitReversal enable => exact .inl h
  | setReducedNoise enable => exact .inl h

/-- An action that keeps the configuration and the size of an allocation. -/
def Action.KeepsSizes : Action P M → Prop
  | .ringDimension _ => False
  | .config _ => False
  | .reset => False
  | _ => True

/-- Actions that keep the sizes keep the configuration and the size of an allocation. -/
theorem Action.KeepsSizes.act {F : Fhetch P M} {x : Action P M} (h : x.KeepsSizes) (w : World P M) :
    (w.act F x).config = w.config ∧ (w.act F x).allocator.polyBytes = w.allocator.polyBytes := by
  cases x with
  | allocator x => exact ⟨rfl, w.allocator.polyBytes_act x⟩
  | session env =>
    obtain ⟨_, _, _, -, he⟩ := session_frame (F := F) env w
    rw [he]
    exact ⟨rfl, rfl⟩
  | ringDimension n => exact h.elim
  | config c => exact h.elim
  | reset => exact h.elim
  | _ => exact ⟨rfl, rfl⟩

namespace World

section

variable {F : Fhetch P M} {w : World P M}

/-- A configuration call that fails changes nothing. -/
theorem configures_failure (env : CompilerReplies P) {c : Call} (hc : c.Configures)
    (h : (c.run F env w).1.code ≠ .success) : (c.run F env w).2 = w := by
  cases c with
  | setRingDimension n =>
    -- A setter that fails has not written.
    have hstate := Shim.replyWith_state (fun _ => .setError .success) (setRingDimension n) w
    refine hstate.trans ?_
    rcases setRingDimension_cases (F := F) n w with ⟨-, he⟩ | ⟨-, he⟩
    · refine absurd ?_ h
      change (Shim.replyWith (fun _ => .setError .success) (setRingDimension n) w).1.code = _
      rw [Shim.replyWith, he]
      rfl
    · exact he
  | config call =>
    obtain ⟨x, hrun, hx⟩ := ConfigCall.run_setting (P := P) (M := M) call
    change (call.run w).1.code ≠ .success at h
    change (call.run w).2 = w
    rw [hrun] at h ⊢
    have hstate := Shim.replyWith_state (fun _ => .setError .success)
      (onConfig x : Method P M Unit) w
    refine hstate.trans ?_
    have hfail := hx.failure w.config
    change ({ w with config := (x w.config).2 } : World P M) = w
    rcases hxw : x w.config with ⟨e | _, c⟩
    · rw [hxw] at hfail
      have hc := hfail ⟨e, rfl⟩
      change c = w.config at hc
      rw [hc]
    · refine absurd ?_ h
      change (Shim.replyWith (fun _ => .setError .success) (onConfig x) w).1.code = _
      rw [Shim.replyWith, onConfig, Expected.zoom_run, hxw]
      rfl
  | _ => exact absurd hc id

/-- Only a configuration call and a reset act on the configuration. -/
theorem config_act {c : Call} (hc : ¬ c.Configures) (hreset : c ≠ .deviceReset)
    {pending : DevAddr → Prop} {x : Action P M} (hx : c.Acts F pending x) (w : World P M) :
    (w.act F x).config = w.config ∧ (w.act F x).allocator.polyBytes = w.allocator.polyBytes := by
  have hkeeps : (∀ d, x ≠ .config d) ∧ (∀ n, x ≠ .ringDimension n) ∧ x ≠ .reset := by
    refine ⟨fun d hd => ?_, fun n hn => ?_, fun hr => ?_⟩ <;> subst x
    all_goals
      cases c with
      | memcpy transfer count => cases transfer <;> exact hx
      | memcpyMrp transfer count base => cases transfer <;> exact hx
      | setRingDimension n => exact hc trivial
      | config call => exact hc trivial
      | deviceReset => exact hreset rfl
      | tagOutput ptr => cases hx
      | _ => exact hx
  refine Action.KeepsSizes.act ?_ w
  cases x with
  | ringDimension n => exact hkeeps.2.1 n rfl
  | config d => exact hkeeps.1 d rfl
  | reset => exact hkeeps.2.2 rfl
  | _ => trivial

/-- A call that neither configures nor resets keeps the configuration. -/
theorem config_after {i : Invocation P} (hc : ¬ i.call.Configures) (hi : i.call ≠ .deviceReset)
    (w : World P M) : (w.after F i).config = w.config ∧
      (w.after F i).allocator.polyBytes = w.allocator.polyBytes := by
  refine (Call.performs (F := F) i.env i.call w).preserves
    (I := fun v => v.config = w.config ∧ v.allocator.polyBytes = w.allocator.polyBytes)
    (fun v x hx hv => ?_) ⟨rfl, rfl⟩
  obtain ⟨hconfig, hbytes⟩ := config_act (F := F) hc hi hx.1 v
  exact ⟨hconfig.trans hv.1, hbytes.trans hv.2⟩

/-- A modulus that is configured after a call was so before, or is the one that it sets. -/
theorem mem_moduli_after {i : Invocation P} {w : World P M} {q : UInt64}
    (h : q ∈ (w.after F i).config.moduli) : q ∈ w.config.moduli ∨
      (q ≠ 0 ∧ ∃ index, i.call = .config (.setCiphertextModulus index q)) := by
  obtain ⟨env, call⟩ := i
  by_cases hreset : call = .deviceReset
  · subst hreset
    exact absurd h List.not_mem_nil
  by_cases hc : call.Configures
  · cases call with
    | setRingDimension n =>
      have hafter : w.after F ⟨env, .setRingDimension n⟩ = (setRingDimension n w).2 :=
        Shim.replyWith_state _ _ w
      -- The dimension is not among the moduli.
      rw [hafter] at h
      rcases setRingDimension_cases (F := F) n w with ⟨-, he⟩ | ⟨-, he⟩
      · rw [he] at h
        exact .inl h
      · rw [he] at h
        exact .inl h
    | config call =>
      refine (ConfigCall.mem_moduli h).imp_right fun ⟨hq, index, hcall⟩ => ⟨hq, index, ?_⟩
      rw [hcall]
    | _ => exact hc.elim
  · rw [(config_after hc hreset w).1] at h
    exact .inl h

/-- Setting the ring dimension of a configured device changes nothing, and is a success only for the
one that is stored. -/
theorem setRingDimension_frozen (hw : w.Inv) (hconf : w.config.configured = true) (n : UInt64) :
    (setRingDimension n w).2 = w ∧ ((setRingDimension n w).1 = .ok () → w.config.ringDim = n) := by
  unfold setRingDimension
  split_ifs with hn hne
  · refine ⟨rfl, fun h => ?_⟩
    cases h
  · refine ⟨rfl, fun h => ?_⟩
    cases h
  · rw [hconf, Bool.true_and, bne_iff_ne, not_not] at hne
    refine ⟨?_, fun _ => hne⟩
    change ({ w with
      config := { w.config with ringDim := n }
      allocator := w.allocator.setPolynomialSize (n * 8) } : World P M) = w
    rw [← hne, ← hw.size, DeviceAllocator.setPolynomialSize, if_neg (not_not.mpr rfl)]

/-- What a call other than a reset does to the parameters. -/
theorem after_cases {i : Invocation P} (hi : i.call ≠ .deviceReset) (w : World P M) :
    (∃ n, w.after F i = (setRingDimension n w).2) ∨
      (∃ x, Config.Setting x ∧ w.after F i = { w with config := (x w.config).2 }) ∨
      ((w.after F i).config = w.config ∧
        (w.after F i).allocator.polyBytes = w.allocator.polyBytes) := by
  -- The setters are the ring dimension's, which also sizes the polynomials, and those of the
  -- configuration.
  by_cases hc : i.call.Configures
  · rcases hcall : i.call with _ | _
    case setRingDimension n =>
      refine .inl ⟨n, ?_⟩
      unfold after Invocation.run
      rw [hcall]
      exact Shim.replyWith_state _ _ w
    case config call =>
      obtain ⟨x, hrun, hx⟩ := ConfigCall.run_setting (P := P) (M := M) call
      refine .inr (.inl ⟨x, hx, ?_⟩)
      unfold after Invocation.run
      rw [hcall]
      change (call.run w).2 = _
      rw [hrun]
      exact Shim.replyWith_state _ _ w
    all_goals
      rw [hcall] at hc
      exact hc.elim
  · exact .inr (.inr (config_after hc hi w))

/-- On a configured device every call but a reset keeps the parameters. -/
theorem frozen_after (hw : w.Inv) (hconf : w.config.configured = true) {i : Invocation P}
    (hi : i.call ≠ .deviceReset) : w.config.Frozen (w.after F i).config ∧
      (w.after F i).allocator.polyBytes = w.allocator.polyBytes := by
  have hrefl : w.config.Frozen w.config := ⟨hconf, rfl, rfl, rfl⟩
  rcases after_cases (F := F) hi w with ⟨n, he⟩ | ⟨x, hx, he⟩ | ⟨hconfig, hbytes⟩
  · rw [he, (setRingDimension_frozen hw hconf n).1]
    exact ⟨hrefl, rfl⟩
  · rw [he]
    exact ⟨hx.frozen w.config hconf, rfl⟩
  · rw [hconfig]
    exact ⟨hrefl, hbytes⟩

/-- A run without a reset keeps the parameters of a configured device. -/
theorem frozen_runAll (hw : w.Inv) (hconf : w.config.configured = true) {is : List (Invocation P)}
    (his : ∀ i ∈ is, i.call ≠ .deviceReset) : w.config.Frozen (runAll F w is).config ∧
      (runAll F w is).allocator.polyBytes = w.allocator.polyBytes := by
  induction is generalizing w with
  | nil => exact ⟨⟨hconf, rfl, rfl, rfl⟩, rfl⟩
  | cons i is ih =>
    obtain ⟨hone, hbytes⟩ := frozen_after (F := F) hw hconf (his i (List.mem_cons_self ..))
    obtain ⟨hrest, hbytes'⟩ := ih (hw.after i) hone.configured
      fun j hj => his j (List.mem_cons_of_mem _ hj)
    exact ⟨⟨hrest.configured, hrest.ringDim.trans hone.ringDim, hrest.moduli.trans hone.moduli,
      hrest.twiddle.trans hone.twiddle⟩, hbytes'.trans hbytes⟩

/-- On a configured device a setter succeeds only for what is stored. -/
theorem setter_repeats (hw : w.Inv) (hconf : w.config.configured = true)
    (env : CompilerReplies P) (s : Setter) (h : (s.call.run F env w).1.code = .success) :
    s.Repeats w.config := by
  cases s with
  | ringDimension n =>
    obtain ⟨_, hok⟩ := Shim.replyWith_success (x := setRingDimension n) h
    exact (setRingDimension_frozen hw hconf n).2 hok
  | modulus index q =>
    obtain ⟨_, hok⟩ := Shim.replyWith_success (x := onConfig (Config.setModulus index q)) h
    rw [onConfig, Expected.zoom_run] at hok
    exact ((Config.setModulus_cases index q w.config).2 hconf).2 hok
  | twiddle index generator =>
    obtain ⟨_, hok⟩ := Shim.replyWith_success
      (x := onConfig (Config.setTwiddleGenerator index generator)) h
    rw [onConfig, Expected.zoom_run] at hok
    exact ((Config.setTwiddleGenerator_cases index generator w.config).2.2 hconf).2 hok

/-- No call puts a zero into the table of moduli. -/
theorem dense_after (h : w.config.Dense) (i : Invocation P) : (w.after F i).config.Dense := by
  by_cases hreset : i.call = .deviceReset
  · unfold after Invocation.run
    rw [hreset]
    exact fun q hq => absurd hq List.not_mem_nil
  rcases after_cases (F := F) hreset w with ⟨n, he⟩ | ⟨x, hx, he⟩ | ⟨hconfig, -⟩
  · rw [he]
    rcases setRingDimension_cases (F := F) n w with ⟨-, he⟩ | ⟨-, he⟩ <;> rw [he] <;> exact h
  · rw [he]
    exact hx.dense w.config h
  · rw [hconfig]
    exact h

/-- The moduli stay dense through a program. -/
theorem dense_runAll (h : w.config.Dense) (is : List (Invocation P)) :
    (runAll F w is).config.Dense := by
  induction is generalizing w with
  | nil => exact h
  | cons i is ih => exact ih (dense_after h i)

end

/-! ## Dense before and frozen after -/

/-- The parameters in `v` are those in `w`. -/
structure SameParameters (w v : World P M) : Prop where
  ringDim : v.config.ringDim = w.config.ringDim
  polyBytes : v.allocator.polyBytes = w.allocator.polyBytes
  modulus : ∀ i, v.config.modulus i = w.config.modulus i
  twiddle : ∀ i : ℕ, v.config.twiddleGenerators[i]? = w.config.twiddleGenerators[i]?

/-- What holds of the parameters in a state. -/
structure Parametrized (F : Fhetch P M) (w : World P M) : Prop where
  nonzero : ∀ q ∈ w.config.moduli, q ≠ 0
  unset : ∀ i, w.config.modulus i = 0 ↔ i < 0 ∨ (w.config.moduli.length : ℤ) ≤ i
  /-- Writing a twiddle generator leaves the moduli. -/
  twiddle : ∀ index generator,
    ((hazeSetTwiddleFactors index generator : Shim P M) w).2.config.moduli = w.config.moduli
  /-- A configuration call that fails changes nothing. -/
  failure : ∀ env (c : Call), c.Configures → (c.run F env w).1.code ≠ .success →
    (c.run F env w).2 = w
  /-- Once the device is configured, and up to a reset, the parameters stay and a setter succeeds
  only for the value that is stored. -/
  frozen : ((hazeConfigureDevice : Shim P M) w).1.code = .success →
    ∀ is : List (Invocation P), (∀ i ∈ is, i.call ≠ .deviceReset) →
      let v := runAll F (hazeConfigureDevice w).2 is
      SameParameters w v ∧ ∀ env (s : Setter), (s.call.run F env v).1.code = .success →
        s.Repeats v.config

/-- The parameters are dense before the device is configured and frozen afterwards, in every state
that a program reaches. -/
theorem parametrized_runAll (F : Fhetch P M) (is : List (Invocation P)) :
    Parametrized F (runAll F World.init is) := by
  have hdense := dense_runAll (F := F) (w := World.init) (fun q hq => absurd hq List.not_mem_nil) is
  have hinv : (runAll F World.init is).Inv := inv_init.runAll is
  -- From here on only the moduli being dense and the invariant matter.
  generalize runAll F World.init is = w at hdense hinv
  refine ⟨hdense, hdense.modulus_eq_zero, fun index generator => ?_,
    fun env c hc h => configures_failure env hc h, fun hok js hjs => ?_⟩
  · have hstate : (hazeSetTwiddleFactors index generator w).2 =
        { w with config := (Config.setTwiddleGenerator index generator w.config).2 } :=
      Shim.replyWith_state _ _ w
    rw [hstate]
    exact (Config.setTwiddleGenerator_cases index generator w.config).2.1
  · have hstate : (hazeConfigureDevice w).2 =
        { w with config := (Config.configureDevice w.config).2 } := Shim.replyWith_state _ _ w
    obtain ⟨_, hdone⟩ := Shim.replyWith_success (x := onConfig Config.configureDevice) hok
    rw [onConfig, Expected.zoom_run] at hdone
    change (Config.configureDevice w.config).1 = _ at hdone
    -- A configuration that has been configured is frozen from then on.
    have hset : (Config.configureDevice w.config).2 = { w.config with configured := true } := by
      unfold Config.configureDevice at hdone ⊢
      split_ifs at hdone ⊢
      rfl
    rw [hstate, hset]
    have hv : ({ w with config := { w.config with configured := true } } : World P M).Inv :=
      ⟨hinv.epoch, hinv.allocator, hinv.size, hinv.initialized⟩
    obtain ⟨hfrozen, hbytes⟩ := frozen_runAll (F := F) hv rfl hjs
    refine ⟨⟨hfrozen.ringDim, hbytes, fun i => ?_, fun i => ?_⟩,
      fun env s h => setter_repeats (hv.runAll js) hfrozen.configured env s h⟩
    · unfold Config.modulus
      rw [hfrozen.moduli]
    · rw [hfrozen.twiddle]

end World

end Haze
