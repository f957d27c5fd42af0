import Haze.Core.ScalarRing
import Haze.Runtime.Invariant

/-!
# Recording

A session starts a recording only where the backend is up, and nothing after it asks whether one is
open: an upload, an operation or a copy that is made while the backend cannot be initialized
succeeds, and is recorded nowhere. `operations_recorded` says that every program that opens its
sessions where the backend is up records what it does.
-/

namespace Haze

variable {P M : Type}

open World

/-- The backend is initialized, or the next session initializes it. -/
def World.BackendUp (env : CompilerReplies P) (w : World P M) : Prop :=
  w.initialized = true ∨ (w.config.unsupportedDataFormat = false ∧ env.initReturns = true)

/-- Nothing is bound, tagged or registered unless it is being recorded. -/
def World.Idle (w : World P M) : Prop :=
  w.epoch.recording = false →
    w.epoch.polyMap = ∅ ∧ w.epoch.pendingOutputs = ∅ ∧ w.epoch.knownMrpGroups = ∅

/-- Every residue of an upload has a source, and is copied to a live address that it fits. -/
def World.Copies (w : World P M) (residues : List (DevAddr × Option (List UInt8)))
    (count : UInt64) : Prop :=
  ∀ r ∈ residues, r.2 ≠ none ∧ w.allocator.checkRange r.1 count = .ok ()

namespace Call

/-- The calls that record: uploads, operations, basis conversions and copies on the device. -/
def Records : Call → Prop
  | .memcpy (.hostToDevice _ _) _ => True
  | .memcpy (.deviceToDevice _ _) _ => True
  | .memcpyMrp (.hostToDevice _ _) _ _ => True
  | .memcpyMrp (.deviceToDevice _ _) _ _ => True
  | .pp _ _ _ _ _ => True
  | .ps _ _ _ _ _ => True
  | .transform _ _ _ _ => True
  | .automorph _ _ _ => True
  | .ppMrp _ _ _ _ _ => True
  | .psMrp _ _ _ _ _ => True
  | .transformMrp _ _ _ _ => True
  | .indexMrp _ _ _ _ _ => True
  | .basisConvert _ _ _ => True
  | .modDown _ _ _ => True
  | .modUp _ _ _ => True
  | _ => False

/-- A call passes the checks that come before its session. -/
def OpensSession (w : World P M) : Call → Prop
  | .memcpy (.hostToDevice dst src) count => dst ≠ .null ∧ w.Copies [(dst, src)] count
  | .memcpy (.deviceToDevice dst src) _ => dst ≠ .null ∧ src ≠ .null
  | .memcpyMrp (.hostToDevice (some dst) (some src)) count (some base) => base ≠ [] ∧
    w.Copies ((takePtrs base.length dst).zip (src.takeD base.length none)) count
  | .memcpyMrp (.deviceToDevice (some _) (some _)) _ (some base) => base ≠ []
  | .pp _ dst src1 src2 _ => dst ≠ .null ∧ src1 ≠ .null ∧ src2 ≠ .null
  | .ps _ dst src _ _ => dst ≠ .null ∧ src ≠ .null
  | .transform _ dst src _ => dst ≠ .null ∧ src ≠ .null
  | .automorph dst src _ => dst ≠ .null ∧ src ≠ .null
  | .ppMrp _ (some _) (some _) (some _) (some base) => base ≠ []
  | .psMrp _ (some _) (some _) (some _) (some base) => base ≠ []
  | .transformMrp _ (some _) (some _) (some base) => base ≠ []
  | .indexMrp _ (some _) (some _) _ (some base) => base ≠ []
  | .basisConvert (some _) (some _) (some p) => ∃ bases, p.validate = .ok bases
  | .modDown (some _) (some _) (some p) => ∃ bases, p.validate = .ok bases
  | .modUp (some _) (some _) (some p) => ∃ bases, p.validate = .ok bases
  | _ => False

end Call

/-- What is claimed of a call that records, when made in `w`: it succeeds only while recording, and
without a backend it fails and leaves the epoch as it is. -/
structure Call.RecordsOrFails (F : Fhetch P M) (env : CompilerReplies P) (c : Call)
    (w : World P M) : Prop where
  recorded : (c.run F env w).1.code = .success → (c.run F env w).2.epoch.recording = true
  refused : ¬ w.BackendUp env →
    (c.run F env w).1.code ≠ .success ∧ (c.run F env w).2.epoch = w.epoch

namespace World

section

variable {F : Fhetch P M} {env : CompilerReplies P} {w : World P M}

/-! ## Sessions -/

/-- A session records where it was recording or the backend is up. -/
theorem recording_session (h : w.epoch.recording = true → w.initialized = true) :
    (w.act F (.session env)).epoch.recording = true ↔ w.BackendUp env := by
  have hinit : (ensureInitialized env w).initialized = true ↔ w.BackendUp env := by
    unfold ensureInitialized BackendUp
    split_ifs <;> simp_all
  have hepoch : (ensureInitialized env w).epoch = w.epoch := by
    unfold ensureInitialized
    split_ifs <;> rfl
  rw [← hinit]
  unfold act ensureRecordingLocked
  dsimp only
  split_ifs with hr
  · exact ⟨fun _ => (Bool.and_eq_true_iff.mp hr).1, fun _ => rfl⟩
  · rw [hepoch] at hr ⊢
    constructor
    · exact fun hrec => hinit.mpr (.inl (h hrec))
    · intro hi
      by_contra hrec
      exact hr (by simp [hi, hrec])

/-- The actions that follow a session. -/
def Binds (x : Action P M) : Prop := x.Body (fun _ => True) ∨ x.Uploads fun _ => True

/-- Only clearing the epoch ends its recording. -/
theorem recording_epoch_act (s : EpochState P) (x : EpochAction P) (hx : x ≠ .clear) :
    (s.act x).recording = s.recording := by
  have h := congrArg (fun b => b.2.2) (s.bindings_act x)
  cases x with
  | clear => exact absurd rfl hx
  | _ => exact h

/-- An action that binds neither starts nor ends the recording. -/
theorem recording_binds {x : Action P M} (hx : Binds x) :
    (w.act F x).epoch.recording = w.epoch.recording := by
  cases x with
  | epoch x =>
    refine recording_epoch_act w.epoch x ?_
    rintro rfl
    exact hx.elim id id
  | promote a => exact recording_epoch_act w.epoch (.bindInput a (w.shadowPoly F a)) nofun
  | session env => exact (hx.elim id id).elim
  | clearState => exact (hx.elim id id).elim
  | reset => exact (hx.elim id id).elim
  | _ => rfl

/-- A method that opens a session is recorded exactly where the backend is up. -/
theorem recording_opens {y : Method P M Unit}
    (hw : w.epoch.recording = true → w.initialized = true) (h : Opens F env Binds y w) :
    (y w).2.epoch.recording = true ↔ w.BackendUp env := by
  obtain ⟨x, he, hx⟩ := h
  have hkeep := (hx (w.act F (.session env))).preserves
    (I := fun v => v.epoch.recording = (w.act F (.session env)).epoch.recording)
    (fun v _ hx hv => (recording_binds hx.1).trans hv) rfl
  rw [← recording_session (F := F) hw, ← hkeep, he]
  exact Iff.rfl

/-! ## Uploads -/

/-- Ranges are checked alike after a write. -/
theorem checkRange_writeShadow (dst a : DevAddr) (bytes : List UInt8) (count : UInt64)
    (s : DeviceAllocator) :
    (DeviceAllocator.writeShadow dst bytes s).checkRange a count = s.checkRange a count := rfl

/-- A copy from the host succeeds exactly where its checks pass, and changes the allocator only. -/
theorem copyH2d_run (r : DevAddr × Option (List UInt8)) (count : UInt64) (w : World P M) :
    ∃ s, (onAllocator (DeviceAllocator.copyH2d r.1 r.2 count) w : _ × World P M).2 =
        { w with allocator := s } ∧
      (∀ a c, s.checkRange a c = w.allocator.checkRange a c) ∧
      ((onAllocator (DeviceAllocator.copyH2d r.1 r.2 count) w : _ × World P M).1 = .ok () ↔
        r.2 ≠ none ∧ w.allocator.checkRange r.1 count = .ok ()) := by
  obtain ⟨dst, src⟩ := r
  unfold onAllocator DeviceAllocator.copyH2d
  rw [Expected.zoom_run]
  rcases src with _ | bytes
  · exact ⟨w.allocator, rfl, fun _ _ => rfl, by simp⟩
  dsimp only
  rcases hc : w.allocator.checkRange dst count with e | _
  · rw [Expected.query_bind_error hc]
    exact ⟨w.allocator, rfl, fun _ _ => rfl, by simp⟩
  · rw [Expected.query_bind_ok hc]
    exact ⟨_, rfl, fun a c => checkRange_writeShadow dst a _ c w.allocator, by simp⟩

/-- Copying the words of residues changes the allocator alone. -/
theorem copyH2dAll_run (count : UInt64) (residues : List (DevAddr × Option (List UInt8)))
    (w : World P M) :
    ∃ s, (Expected.forEach (fun r => onAllocator (DeviceAllocator.copyH2d r.1 r.2 count)) residues
        w : _ × World P M).2 = { w with allocator := s } ∧
      ((Expected.forEach (fun r => onAllocator (DeviceAllocator.copyH2d r.1 r.2 count)) residues
        w : _ × World P M).1 = .ok () ↔ w.Copies residues count) := by
  -- By induction on the residues; a copy changes the words alone, so the later checks see the same
  -- sizes.
  induction residues generalizing w with
  | nil => exact ⟨w.allocator, rfl, by simp [Copies]⟩
  | cons r rs ih =>
    obtain ⟨s, hs, hcheck, hok⟩ := copyH2d_run r count w
    rcases hr : (onAllocator (DeviceAllocator.copyH2d r.1 r.2 count) w : _ × World P M) with ⟨e | _, w₁⟩
    · rw [hr] at hs hok
      rw [Expected.forEach_cons, Expected.bind_run_error hr]
      refine ⟨s, hs, ⟨fun h => (nomatch h), fun h => ?_⟩⟩
      exact nomatch hok.mpr (h r (List.mem_cons_self ..))
    · rw [hr] at hs hok
      obtain ⟨t, ht, hrest⟩ := ih w₁
      rw [Expected.forEach_cons, Expected.bind_run_ok hr]
      change w₁ = _ at hs
      subst hs
      refine ⟨t, ht, hrest.trans ?_⟩
      simp only [Copies, List.forall_mem_cons, hcheck]
      exact ⟨fun h => ⟨hok.mp rfl, h⟩, fun h => h.2⟩

end

end World

/-! ## Calls -/

section

variable {F : Fhetch P M} {env : CompilerReplies P} {w : World P M} {opens : Prop}

/-- A call passes its checks, and what it then does is a method that opens a session; or it is
rejected by them, and leaves all but the allocator as it is. -/
def Gated (F : Fhetch P M) (env : CompilerReplies P) (shim : Shim P M) (opens : Prop)
    (w : World P M) : Prop :=
  (opens ∧ ∃ s y, (shim w).2 = (y { w with allocator := s }).2 ∧
    Opens F env Binds y { w with allocator := s }) ∨
  (¬ opens ∧ (shim w).1.code ≠ .success ∧ ∃ s, (shim w).2 = { w with allocator := s })

/-- An entry that rejects its arguments opens no session. -/
theorem Gated.invalid (h : ¬ opens) : Gated F env Shim.invalidValue opens w :=
  .inr ⟨h, HazeError.noConfusion, w.allocator, rfl⟩

/-- An entry with a guard opens a session when it rejects nothing. -/
theorem Gated.guarded {rejected : Bool} {y : Method P M Unit} (hopens : opens ↔ rejected = false)
    (h : Opens F env (Action.Body fun _ => True) y w) :
    Gated F env (Shim.guarded rejected (Shim.setInternalResult y)) opens w := by
  cases rejected with
  | true => exact .invalid fun h => Bool.noConfusion (hopens.mp h)
  | false =>
    exact .inl ⟨hopens.mpr rfl, w.allocator, y, Shim.replyWith_state .., h.mono fun _ => .inl⟩

/-- Parameters that pass their checks open a session, however the success is replied. -/
theorem Gated.validated {T : Type} {v : Except HazeInternalError T} {f : T → Method P M Unit}
    {onOk : Unit → Reply} (h : ∀ t, v = .ok t →
      Opens F env (Action.Body fun _ => True) (Expected.query (fun _ => v) >>= f) w) :
    Gated F env (Shim.replyWith onOk (Expected.query (fun _ => v) >>= f)) (∃ t, v = .ok t) w := by
  rcases hv : v with e | t
  · refine .inr ⟨fun h => (nomatch h), ?_, w.allocator, ?_⟩
    · exact toPublicError_ne_success e
    · rfl
  · subst hv
    exact .inl ⟨⟨t, rfl⟩, w.allocator, _, Shim.replyWith_state ..,
      (h t rfl).mono fun _ => .inl⟩

/-- An entry with arrays opens a session when all of them are there. -/
theorem Gated.withArrays {dst src : Option (List DevAddr)} {base : Option (List UInt64)}
    {x : List DevAddr → List DevAddr → List UInt64 → Method P M Unit}
    (hopens : opens ↔ ∃ d s b, dst = some d ∧ src = some s ∧ base = some b ∧ b ≠ [])
    (h : ∀ d s b, Opens F env (Action.Body fun _ => True) (x d s b) w) :
    Gated F env (Haze.withArrays dst src base x) opens w := by
  rcases dst with _ | d
  · exact .invalid (by simp [hopens])
  rcases src with _ | s
  · exact .invalid (by simp [hopens])
  rcases base with _ | b
  · exact .invalid (by simp [hopens])
  · exact .guarded (by simp [hopens]) (h d s b)

/-- An upload opens its session after its copies `x`. -/
theorem Gated.upload {x y : Method P M Unit} {copies : Prop} {rejected : Bool}
    (hx : ∃ s, (x w).2 = { w with allocator := s } ∧ ((x w).1 = .ok () ↔ copies))
    (hopens : opens ↔ rejected = false ∧ copies)
    (h : ∀ s, Opens F env (Action.Uploads fun _ => True) y { w with allocator := s }) :
    Gated F env (Shim.guarded rejected (Shim.setInternalResult (x >>= fun _ => y))) opens w := by
  -- The null checks come first.
  cases rejected with
  | true => exact .invalid fun h => Bool.noConfusion (hopens.mp h).1
  | false =>
    obtain ⟨s, hs, hok⟩ := hx
    -- A copy that fails returns before the session.
    rcases hr : x w with ⟨e | _, w'⟩
    · rw [hr] at hs hok
      refine .inr ⟨fun h => (nomatch hok.mpr (hopens.mp h).2), ?_, s, ?_⟩
      · change (Shim.replyWith _ _ w).1.code ≠ _
        rw [Shim.replyWith, Expected.bind_run_error hr]
        exact toPublicError_ne_success e
      · change (Shim.replyWith _ _ w).2 = _
        rw [Shim.replyWith_state, Expected.bind_run_error hr]
        exact hs
    -- A copy that succeeds is followed by the session.
    · rw [hr] at hs hok
      change w' = _ at hs
      subst hs
      refine .inl ⟨hopens.mpr ⟨rfl, hok.mp rfl⟩, s, y, ?_, (h s).mono fun _ => .inr⟩
      change (Shim.replyWith _ _ w).2 = _
      rw [Shim.replyWith_state, Expected.bind_run_ok hr]

end

/-- The calls that record, by whether they open their session. -/
theorem Call.gated (F : Fhetch P M) (env : CompilerReplies P) {c : Call} (hc : c.Records)
    (w : World P M) : Gated F env (c.run F env) (c.OpensSession w) w := by
  -- Each call is its checks in front of one session.
  cases c with
  | memcpy transfer count =>
    cases transfer with
    | hostToDevice dst src =>
      obtain ⟨s, hs, -, hok⟩ := copyH2d_run (dst, src) count w
      exact .upload ⟨s, hs, hok⟩
        (by simp +contextual [OpensSession, Copies, and_assoc, Option.isSome_iff_ne_none])
        fun s => tagH2dInput_opens env trivial _
    | deviceToDevice dst src =>
      exact .guarded (by simp [OpensSession])
        ((copyDeviceToDevice_opens env src trivial w).mono fun _ => Action.Stores.body)
    | _ => exact hc.elim
  | memcpyMrp transfer count base =>
    cases transfer with
    | hostToDevice dst src =>
      rcases dst with _ | dst
      · exact .invalid id
      rcases src with _ | src
      · exact .invalid id
      rcases base with _ | base
      · exact .invalid id
      · exact .upload (copyH2dAll_run ..) (by simp [OpensSession]) fun s =>
          ⟨_, rfl, .forEach fun a _ => tagH2dInputLocked_uploads trivial⟩
    | deviceToDevice dst src =>
      rcases dst with _ | dst
      · exact .invalid id
      rcases src with _ | src
      · exact .invalid id
      rcases base with _ | base
      · exact .invalid id
      · exact .guarded (by simp [OpensSession])
          (copyDeviceToDeviceMrp_opens env dst src base (fun _ _ => trivial) w)
    | _ => exact hc.elim
  | pp op dst src1 src2 modIdx =>
    cases op <;> exact .guarded (by simp [OpensSession, and_assoc])
      (binaryPpOp_opens env _ src1 src2 modIdx trivial w |>.mono fun _ => Action.Stores.body)
  | ps op dst src scalar modIdx =>
    cases op <;> exact .guarded (by simp [OpensSession])
      (unaryPqOp_opens env _ src modIdx trivial w |>.mono fun _ => Action.Stores.body)
  | transform op dst src modIdx =>
    cases op <;> exact .guarded (by simp [OpensSession])
      (unaryPqOp_opens env _ src modIdx trivial w |>.mono fun _ => Action.Stores.body)
  | automorph dst src index =>
    exact .guarded (by simp [OpensSession])
      (unaryPiOp_opens env _ src index trivial w |>.mono fun _ => Action.Stores.body)
  -- The second source and the scalars are checked before the other arrays.
  | ppMrp op dst src1 src2 base =>
    rcases src2 with _ | src2
    · cases op <;> exact .invalid (by cases dst <;> cases src1 <;> exact id)
    · cases op <;> exact .withArrays (by cases dst <;> cases src1 <;> cases base <;> simp [OpensSession])
        fun d s b => binaryPpOpMrp_opens env _ d s src2 b (fun _ _ => trivial) w
  | psMrp op dst src scalars base =>
    rcases scalars with _ | scalars
    · cases op <;> exact .invalid (by cases dst <;> cases src <;> exact id)
    · cases op <;> exact .withArrays (by cases dst <;> cases src <;> cases base <;> simp [OpensSession])
        fun d s b => unaryPOpMrp_opens env _ d s b (fun _ _ => trivial) w
  | transformMrp op dst src base =>
    cases op <;> exact .withArrays (by cases dst <;> cases src <;> cases base <;> simp [OpensSession])
      fun d s b => unaryPOpMrp_opens env _ d s b (fun _ _ => trivial) w
  | indexMrp op dst src index base =>
    cases op <;> exact .withArrays (by cases dst <;> cases src <;> cases base <;> simp [OpensSession])
      fun d s b => unaryPOpMrp_opens env _ d s b (fun _ _ => trivial) w
  -- A conversion opens its session behind its own checks and the validation.
  | basisConvert dst src params =>
    rcases dst with _ | dst
    · exact .invalid id
    rcases src with _ | src
    · exact .invalid id
    rcases params with _ | p
    · exact .invalid id
    · exact .validated fun _ hp => basisConvert_opens env dst src hp (fun _ _ => trivial) w
  | modDown dst src params =>
    rcases dst with _ | dst
    · exact .invalid id
    rcases src with _ | src
    · exact .invalid id
    rcases params with _ | p
    · exact .invalid id
    · exact .validated fun _ hp => modDown_opens env dst src hp (fun _ _ _ _ _ _ => trivial) w
  | modUp dst src params =>
    rcases dst with _ | dst
    · exact .invalid id
    rcases src with _ | src
    · exact .invalid id
    rcases params with _ | p
    · exact .invalid id
    · exact .validated fun _ hp => modUp_opens env dst src hp (fun _ _ _ _ _ _ _ _ _ => trivial) w
  | _ => exact hc.elim

/-- A call that records does what is claimed of it where it opens no session without a backend. -/
theorem Call.recordsOrFails {F : Fhetch P M} {env : CompilerReplies P} {c : Call} {w : World P M}
    (hc : c.Records) (hw : w.epoch.recording = true → w.initialized = true)
    (hup : c.OpensSession w → w.BackendUp env) : c.RecordsOrFails F env w := by
  rcases c.gated F env hc w with ⟨hopens, s, y, hrun, hy⟩ | ⟨hclosed, herror, s, hs⟩
  · refine ⟨fun _ => ?_, fun hdown => absurd (hup hopens) hdown⟩
    rw [hrun]
    exact (recording_opens (w := { w with allocator := s }) hw hy).mpr (hup hopens)
  · exact ⟨fun hok => absurd hok herror, fun _ => ⟨herror, by rw [hs]⟩⟩

/-! ## Runs -/

/-- The actions of the calls that do not record. -/
def Action.Unbinds : Action P M → Prop
  | .epoch (.invalidate _) => True
  | .epoch (.tagOutput _) => True
  | .epoch _ => False
  | .promote _ => False
  | .session _ => False
  | _ => True

/-- A call that does not record unbinds at most. -/
theorem Call.acts_unbinds {F : Fhetch P M} {pending : DevAddr → Prop} {c : Call} {x : Action P M}
    (hc : ¬ c.Records) (h : c.Acts F pending x) : x.Unbinds := by
  cases c with
  | malloc | mallocMrp | free | freeMrp | memset | flush | writeProgram =>
    cases x with
    | epoch x => cases x <;> first | exact h.elim | trivial
    | _ => first | exact h.elim | trivial
  | memcpy transfer count =>
    cases transfer with
    | hostToDevice | deviceToDevice => exact absurd trivial hc
    | _ => exact h.elim
  | memcpyMrp transfer count base =>
    cases transfer with
    | hostToDevice | deviceToDevice => exact absurd trivial hc
    | _ => exact h.elim
  | tagOutput | deviceReset | setRingDimension =>
    cases h
    trivial
  | config call =>
    obtain ⟨c, rfl⟩ := h
    trivial
  | _ => exact absurd trivial hc

/-- A call that does not record binds nothing. -/
theorem unbinds_act {F : Fhetch P M} {x : Action P M} {w : World P M} (hx : x.Unbinds)
    (h : w.epoch.recording = false → w.epoch.polyMap = ∅) :
    (w.act F x).epoch.recording = false → (w.act F x).epoch.polyMap = ∅ := by
  -- An action outside a session binds nothing.
  cases x with
  | epoch x =>
    have hb := w.epoch.bindings_act x
    have hpoly : (w.epoch.act x).polyMap = _ := congrArg (fun b => b.1) hb
    have hrec : (w.epoch.act x).recording = _ := congrArg (fun b => b.2.2) hb
    intro hidle
    change (w.epoch.act x).recording = false at hidle
    change (w.epoch.act x).polyMap = ∅
    rw [hpoly]
    rw [hrec] at hidle
    cases x with
    | invalidate a =>
      dsimp only at hidle ⊢
      rw [h hidle]
      rfl
    | tagOutput a => exact h hidle
    | _ => exact hx.elim
  | promote a => exact hx.elim
  | session env => exact hx.elim
  | clearState => exact fun _ => rfl
  | reset => exact fun _ => rfl
  | _ => exact h

/-- Where nothing is bound, nothing is tagged or registered. -/
theorem World.idle_of_polyMap {w : World P M} (hw : w.epoch.Valid)
    (h : w.epoch.recording = false → w.epoch.polyMap = ∅) : w.Idle := by
  intro hrec
  have hpoly := h hrec
  have hunbound : ∀ a, a ∉ w.epoch.polyMap := fun a => hpoly ▸ AList.notMem_empty a
  refine ⟨hpoly, UMap.eq_empty_iff.mpr fun a ha => ?_, UMap.eq_empty_iff.mpr fun name hn => ?_⟩
  · exact hunbound a (hw.consistent.pending_bound a ha)
  · obtain ⟨group, hg⟩ := UMap.mem_iff_lookup.mp hn
    have hhead := EpochState.headD_mem (hw.named.leading name group hg).1
    exact hunbound _ (hw.consistent.member_bound name _ ⟨group, hg, hhead⟩)

/-- The step of the run: a call that opens no session without a backend binds nothing that it does
not record. -/
theorem World.idle_after {F : Fhetch P M} {w : World P M} {i : Invocation P} (hw : w.Inv)
    (hup : i.call.OpensSession w → w.BackendUp i.env) (h : w.Idle) : (w.after F i).Idle := by
  have hpoly : w.epoch.recording = false → w.epoch.polyMap = ∅ := fun hrec => (h hrec).1
  refine idle_of_polyMap (hw.after i).epoch ?_
  by_cases hc : i.call.Records
  · rcases i.call.gated F i.env hc w with ⟨hopens, s, y, hrun, hy⟩ | ⟨-, -, s, hs⟩
    · intro hidle
      have hrec : (w.after F i).epoch.recording = true := by
        change (i.call.run F i.env w).2.epoch.recording = true
        rw [hrun]
        exact (recording_opens (w := { w with allocator := s }) hw.initialized hy).mpr (hup hopens)
      rw [hrec] at hidle
      cases hidle
    · change (i.call.run F i.env w).2.epoch.recording = false → _
      rw [show w.after F i = { w with allocator := s } from hs, hs]
      exact hpoly
  · exact (Call.performs i.env i.call w).preserves
      (I := fun w => w.epoch.recording = false → w.epoch.polyMap = ∅)
      (fun _ _ hx => unbinds_act (Call.acts_unbinds hc hx.1)) hpoly

/-- No operation succeeds unrecorded. In every run whose calls open a session only where the backend
is up, every state that records nothing has nothing bound, tagged or registered; and whatever call
is made in any of these states, if it records and would not open a session without the backend, it
does what is claimed of it. -/
theorem operations_recorded (F : Fhetch P M) (is : List (Invocation P))
    (h : Expected.Along (World.after F) (fun w i => i.call.OpensSession w → w.BackendUp i.env)
      World.init is) :
    Expected.Along (World.after F)
        (fun w i => w.Idle ∧ (i.call.Records → i.call.RecordsOrFails F i.env w)) World.init is ∧
      (World.runAll F World.init is).Idle := by
  have hrun : ∀ w : World P M, w.Inv → w.Idle →
      Expected.Along (World.after F) (fun w i => i.call.OpensSession w → w.BackendUp i.env) w is →
      Expected.Along (World.after F)
          (fun w i => w.Idle ∧ (i.call.Records → i.call.RecordsOrFails F i.env w)) w is ∧
        (World.runAll F w is).Idle := by
    clear h
    induction is with
    | nil => exact fun w _ hidle _ => ⟨trivial, hidle⟩
    | cons i is ih =>
      intro w hw hidle h
      obtain ⟨halong, hend⟩ := ih (w.after F i) (hw.after i) (idle_after hw h.1 hidle) h.2
      exact ⟨⟨⟨hidle, fun hc => Call.recordsOrFails hc hw.initialized h.1⟩, halong⟩, hend⟩
  exact hrun World.init inv_init (fun _ => ⟨rfl, rfl, rfl⟩) h

/-- An upload and an addition while the backend comes up. -/
theorem operations_recorded_example :
    let is := scalarProgram [.setRingDimension 1, .config (.setCiphertextModulus 0 17),
      .malloc true 8, .memcpy (.hostToDevice ⟨kHbmBase⟩ (some [5, 0, 0, 0, 0, 0, 0, 0])) 8,
      .pp .add ⟨kHbmBase⟩ ⟨kHbmBase⟩ ⟨kHbmBase⟩ 0]
    Expected.Along (World.after scalarRing)
        (fun w i => w.Idle ∧ (i.call.Records → i.call.RecordsOrFails scalarRing i.env w))
        World.init is ∧ (World.runAll scalarRing World.init is).Idle :=
  operations_recorded scalarRing _
    ⟨fun h => h.elim, fun h => h.elim, fun h => h.elim, fun _ => .inr ⟨by decide, rfl⟩,
      fun _ => .inl (by decide +kernel), trivial⟩

/-- The local target does not run traces in Montgomery form, so the backend is not initialized, and
an upload still succeeds while nothing is recorded. -/
theorem operations_recorded_counterexample :
    ¬ ∀ is : List (Invocation UInt64),
      Expected.Along (World.after scalarRing)
        (fun w i => w.Idle ∧ (i.call.Records → i.call.RecordsOrFails scalarRing i.env w))
        World.init is := by
  intro h
  have hrun := h (scalarProgram [.setRingDimension 1, .config (.setMontgomery 1), .malloc true 8,
    .memcpy (.hostToDevice ⟨kHbmBase⟩ (some [5, 0, 0, 0, 0, 0, 0, 0])) 8])
  have hrecorded := (hrun.2.2.2.1.2 trivial).recorded (by decide +kernel)
  revert hrecorded
  decide +kernel

end Haze
