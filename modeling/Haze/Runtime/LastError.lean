import Haze.Core.ScalarRing
import Haze.Entries
import Haze.Runtime.Calls
import Mathlib.Logic.Function.Basic

/-!
# The last error

Every entry of the runtime reports in one of two ways: a success is returned directly, which leaves
the thread's last error alone, or it is written there as a failure is. A failure that was not read is
lost in the second way. The bridge's initialization returns its failures without writing them, so
that they are never there to be read. `lastError_sticky` says that these are the only ways: a thread
finds its last error to be the most recent failure that it has not read, at every point of a run,
exactly when no call that writes its success succeeds while there is one, and the bridge only fails
with the code that is there.

What the calls of the other threads do to the shared state shows in the replies only. A run is
therefore a sequence of calls with their replies, where each reply is one that its call can return,
whatever happened before the call and during it.
-/

namespace Haze

open World

variable {P M : Type}

/-! ## The replies of a call -/

/-- Whether a call writes its success to the last error. -/
def Call.WritesSuccess : Call → Prop
  | .malloc _ _ => False
  | .mallocMrp _ _ _ => False
  | .memset _ _ _ => False
  | .basisConvert _ _ _ => False
  | .modDown _ _ _ => False
  | .modUp _ _ _ => False
  | _ => True

/-- The replies that a call can return. A failure is written to the last error, and a success by
some calls; a reset succeeds. -/
def Call.Returns (c : Call) (r : Reply) : Prop :=
  (r.code ≠ .success ∧ r.lastError = some r.code ∧ c ≠ .deviceReset) ∨
    (r.code = .success ∧ c.WritesSuccess ∧ r.lastError = some .success) ∨
    (r.code = .success ∧ ¬ c.WritesSuccess ∧ r.lastError = none)

/-- A shim writes every failure to the last error, and its successes where `written`. -/
def Shim.Reports (written : Prop) (shim : Shim P M) : Prop :=
  ∀ w, ((shim w).1.code ≠ .success ∧ (shim w).1.lastError = some (shim w).1.code) ∨
    ((shim w).1.code = .success ∧ written ∧ (shim w).1.lastError = some .success) ∨
    ((shim w).1.code = .success ∧ ¬ written ∧ (shim w).1.lastError = none)

namespace Shim.Reports

variable {written : Prop}

/-- Rejected arguments are reported. -/
theorem invalidValue : Shim.Reports written (Shim.invalidValue : Shim P M) :=
  fun _ => .inl ⟨fun h => HazeError.noConfusion h, rfl⟩

/-- A method's error is written, and its value is reported as `onOk` does. -/
theorem replyWith {α : Type} {onOk : α → Reply} (x : Method P M α)
    (h : ∀ a, (onOk a).code = .success ∧
      ((written ∧ (onOk a).lastError = some .success) ∨ (¬ written ∧ (onOk a).lastError = none))) :
    Shim.Reports written (Shim.replyWith onOk x) := by
  intro w
  unfold Shim.replyWith
  rcases x w with ⟨e | a, w'⟩
  · exact .inl ⟨toPublicError_ne_success e, rfl⟩
  · obtain ⟨hcode, ⟨hw, hlast⟩ | ⟨hw, hlast⟩⟩ := h a
    · exact .inr (.inl ⟨hcode, hw, hlast⟩)
    · exact .inr (.inr ⟨hcode, hw, hlast⟩)

/-- An entry that writes its result reports it. -/
theorem setInternalResult (x : Method P M Unit) :
    Shim.Reports True (Shim.setInternalResult x) :=
  replyWith x fun _ => ⟨rfl, .inl ⟨trivial, rfl⟩⟩

/-- An entry with a guard reports what it guards. -/
theorem guarded {shim : Shim P M} (rejected : Bool) (h : Shim.Reports written shim) :
    Shim.Reports written (Shim.guarded rejected shim) := by
  unfold Shim.guarded
  split_ifs
  · exact invalidValue
  · exact h

/-- An entry with arrays reports. -/
theorem withArrays (x : List DevAddr → List DevAddr → List UInt64 → Method P M Unit)
    (dst src : Option (List DevAddr)) (base : Option (List UInt64)) :
    Shim.Reports True (Haze.withArrays dst src base x) := by
  rcases dst with _ | dst
  · exact invalidValue
  rcases src with _ | src
  · exact invalidValue
  rcases base with _ | base
  · exact invalidValue
  · exact guarded _ (setInternalResult _)

/-- An entry with a parameter block reports its failures, and returns its success directly. -/
theorem dispatch {T : Type} (x : List DevAddr → List DevAddr → T → Method P M Unit)
    (dst src : Option (List DevAddr)) (params : Option T) :
    Shim.Reports False (Haze.dispatch x dst src params) := by
  rcases dst with _ | dst
  · exact invalidValue
  rcases src with _ | src
  · exact invalidValue
  rcases params with _ | params
  · exact invalidValue
  · exact replyWith _ fun _ => ⟨rfl, .inr ⟨id, rfl⟩⟩

/-- `hazeMemcpyMrp` reports. -/
theorem memcpyMrp (F : Fhetch P M) (env : CompilerReplies P) (transfer : TransferMrp)
    (count : UInt64) (base : Option (List UInt64)) :
    Shim.Reports True (hazeMemcpyMrp F env transfer count base) := by
  have hcopied : ∀ {α : Type} (f : α → List (List UInt8)) (x : Method P M α), Shim.Reports True
      (Shim.replyWith (fun a => { Reply.setError .success with bytes := f a }) x) :=
    fun f x => replyWith x fun _ => ⟨rfl, .inl ⟨trivial, rfl⟩⟩
  cases transfer with
  | hostToDevice dst src =>
    rcases dst with _ | dst <;> rcases src with _ | src <;> rcases base with _ | base <;>
      first | exact invalidValue | exact guarded _ (setInternalResult _)
  | deviceToHost dst src =>
    rcases dst with _ | dst <;> rcases src with _ | src <;> rcases base with _ | base <;>
      first | exact invalidValue | exact guarded _ (hcopied _ _)
  | deviceToDevice dst src =>
    rcases dst with _ | dst <;> rcases src with _ | src <;> rcases base with _ | base <;>
      first | exact invalidValue | exact guarded _ (setInternalResult _)
  | unknownKind => rcases base with _ | base <;> exact invalidValue

end Shim.Reports

/-- What the calls reply. -/
theorem Call.run_reports (F : Fhetch P M) (env : CompilerReplies P) (c : Call) :
    Shim.Reports c.WritesSuccess (c.run F env) := by
  -- Three calls build their reply themselves, and a success of theirs leaves the last error alone.
  have hdirect : ∀ {α : Type} (f : α → List DevAddr) (x : Method P M α), Shim.Reports False
      (Shim.replyWith (fun a => { Reply.success with ptrs := f a }) x) :=
    fun f x => .replyWith x fun _ => ⟨rfl, .inr ⟨id, rfl⟩⟩
  -- The others report through one of the helpers of the shim.
  cases c with
  | malloc ptr size => exact .guarded _ (hdirect _ _)
  | free ptr => exact .setInternalResult _
  | mallocMrp ptrs count size => exact .guarded _ (hdirect _ _)
  | freeMrp ptrs count =>
    rcases ptrs with _ | ptrs
    · exact .invalidValue
    · exact .guarded _ (.setInternalResult _)
  | memcpy transfer count =>
    cases transfer with
    | hostToDevice dst src => exact .guarded _ (.setInternalResult _)
    | deviceToHost dst src =>
      exact .guarded _ (.replyWith _ fun _ => ⟨rfl, .inl ⟨trivial, rfl⟩⟩)
    | deviceToDevice dst src => exact .guarded _ (.setInternalResult _)
    | unknownKind => exact .invalidValue
  | memcpyMrp transfer count base => exact .memcpyMrp F env transfer count base
  | memset devPtr value count => exact .guarded _ (hdirect (fun _ => []) _)
  | pp op dst src1 src2 modIdx => cases op <;> exact .guarded _ (.setInternalResult _)
  | ps op dst src scalar modIdx => cases op <;> exact .guarded _ (.setInternalResult _)
  | transform op dst src modIdx => cases op <;> exact .guarded _ (.setInternalResult _)
  | automorph dst src index => exact .guarded _ (.setInternalResult _)
  | ppMrp op dst src1 src2 base =>
    rcases src2 with _ | src2
    · cases op <;> exact .invalidValue
    · cases op <;> exact .withArrays _ dst src1 base
  | psMrp op dst src scalars base =>
    rcases scalars with _ | scalars
    · cases op <;> exact .invalidValue
    · cases op <;> exact .withArrays _ dst src base
  | transformMrp op dst src base => cases op <;> exact .withArrays _ dst src base
  | indexMrp op dst src index base => cases op <;> exact .withArrays _ dst src base
  | basisConvert dst src params => exact .dispatch _ dst src params
  | modDown dst src params => exact .dispatch _ dst src params
  | modUp dst src params => exact .dispatch _ dst src params
  | tagOutput ptr => exact .guarded _ (.setInternalResult _)
  | flush => exact .setInternalResult _
  | writeProgram => exact .setInternalResult _
  | deviceReset => exact fun w => .inr (.inl ⟨rfl, trivial, rfl⟩)
  | setRingDimension n => exact .setInternalResult _
  -- The setters report like any other call.
  | config call => cases call <;> exact .setInternalResult _

/-- Whatever the state is, a call replies what it can return. -/
theorem Call.run_returns (F : Fhetch P M) (env : CompilerReplies P) (c : Call) (w : World P M) :
    c.Returns (c.run F env w).1 := by
  rcases c.run_reports F env w with ⟨hcode, hlast⟩ | h
  · refine .inl ⟨hcode, hlast, fun hreset => hcode ?_⟩
    rw [hreset]
    rfl
  · exact .inr h

/-- A failure is written to the last error; a success is written or is not. -/
def Reply.Reported (r : Reply) : Prop :=
  (r.code ≠ .success ∧ r.lastError = some r.code) ∨
    (r.code = .success ∧ (r.lastError = some .success ∨ r.lastError = none))

/-- What a call returns is reported, or a direct success. -/
theorem Call.Returns.reported {c : Call} {r : Reply} (h : c.Returns r) : r.Reported := by
  rcases h with ⟨hcode, hlast, -⟩ | ⟨hcode, -, hlast⟩ | ⟨hcode, -, hlast⟩
  · exact .inl ⟨hcode, hlast⟩
  · exact .inr ⟨hcode, .inl hlast⟩
  · exact .inr ⟨hcode, .inr hlast⟩

/-- What `set_error` returns is reported. -/
theorem reported_setError (code : HazeError) : (Reply.setError code).Reported := by
  by_cases h : code = .success
  · exact .inr ⟨h, .inl (congrArg some h)⟩
  · exact .inl ⟨h, rfl⟩

/-- A direct success is allowed. -/
theorem reported_success : Reply.success.Reported := .inr ⟨rfl, .inr rfl⟩

/-- What an entry that creates a handle returns is reported. -/
theorem reported_create (out allocated : Bool) : (create out allocated).Reported := by
  unfold create
  split_ifs
  · exact reported_setError _
  · exact reported_setError _
  · exact reported_success

/-- So is what the other entries return. -/
theorem OtherCall.reply_reported (c : OtherCall) (allocated : Bool) :
    (c.reply allocated).Reported := by
  cases c with
  | hostAlloc ptr size =>
    unfold OtherCall.reply hazeHostAlloc
    dsimp only
    split_ifs
    · exact reported_setError _
    · exact reported_setError _
    · exact reported_success
  | streamCreate stream => exact reported_create stream allocated
  | eventCreate event => exact reported_create event allocated
  | getDeviceCount count =>
    cases count
    · exact reported_setError _
    · exact reported_success
  | getDevice device =>
    cases device
    · exact reported_setError _
    · exact reported_success
  | _ => first | exact reported_success | exact reported_setError _

/-- A reply that is reported leaves its failure in the last error, its success, or what was
there. -/
theorem Reply.Reported.leaves {r : Reply} (h : r.Reported) (last : HazeError) :
    ((decide (r.code = .success) && decide (r.lastError = some .success)) = false ∧
        ∃ code, (if r.code = .success then none else some r.code) = some code ∧
          r.lastError.getD last = code) ∨
      ((if r.code = .success then none else some r.code) = none ∧ r.lastError.getD last =
        if (decide (r.code = .success) && decide (r.lastError = some .success)) then .success
        else last) := by
  rcases h with ⟨hcode, hlast⟩ | ⟨hcode, hlast | hlast⟩
  · exact .inl ⟨by simp [hcode], r.code, by simp [hcode], by simp [hlast]⟩
  · exact .inr ⟨by simp [hcode], by simp [hcode, hlast]⟩
  · exact .inr ⟨by simp [hcode], by simp [hcode, hlast]⟩

/-! ## Threads -/

/-- The codes that `hazeReplayBridgeInitCryptoContext` returns. -/
def InitReturns (code : HazeError) : Prop :=
  code = .success ∨ code = .invalidValue ∨ code = .internal

/-- A call of any entry that returns a code, with the reply of the entries that reach the shared
state. The initialization of the bridge never touches the last error. -/
inductive ThreadCall where
  | call (c : Call) (reply : Reply) (returns : c.Returns reply)
  | other (c : OtherCall) (allocated : Bool)
  | initCryptoContext (code : HazeError) (returns : InitReturns code)
  | getLastError

namespace ThreadCall

/-- The reply, to a thread with a last error. -/
def reply (lastError : HazeError) : ThreadCall → Reply
  | .call _ r _ => r
  | .other c allocated => c.reply allocated
  | .initCryptoContext code _ => { code := code, lastError := none }
  | .getLastError => hazeGetLastError lastError

/-- The calls after which a thread has nothing to read: reading, and a reset. -/
def Settles : ThreadCall → Bool
  | .call .deviceReset _ _ => true
  | .getLastError => true
  | _ => false

/-- The code that a call returns, if it is a failure that the thread has yet to read. -/
def failure : ThreadCall → Option HazeError
  | .call _ r _ => if r.code = .success then none else some r.code
  | .other c allocated =>
    if (c.reply allocated).code = .success then none else some (c.reply allocated).code
  | .initCryptoContext code _ => if code = .success then none else some code
  | .getLastError => none

/-- Whether a call succeeds and writes its success, without settling. -/
def Erases : ThreadCall → Bool
  | .call .deviceReset _ _ => false
  | .call _ r _ => r.code = .success && r.lastError = some .success
  | .other c allocated =>
    (c.reply allocated).code = .success && (c.reply allocated).lastError = some .success
  | .initCryptoContext _ _ => false
  | .getLastError => false

/-- Whether a call leaves what a thread has to read where the thread reads it: it does not erase a
failure, and a failure of the bridge has the code that is already there. -/
def Keeps (owed : HazeError) (c : ThreadCall) : Prop :=
  (c.Erases = true → owed = .success) ∧
    ∀ code returns, c = .initCryptoContext code returns → code ≠ .success → owed = code

/-- A call that is not the bridge's keeps what there is to read unless it erases a failure. -/
theorem keeps_iff {owed : HazeError} {c : ThreadCall}
    (h : ∀ code returns, c ≠ .initCryptoContext code returns) :
    c.Keeps owed ↔ (c.Erases = true → owed = .success) :=
  and_iff_left fun code returns hc => absurd hc (h code returns)

/-- What a call of the runtime leaves in the last error: nothing to read, its failure, its success,
or what was there. -/
theorem leaves (c : ThreadCall) (h : ∀ code returns, c ≠ .initCryptoContext code returns)
    (last : HazeError) :
    (c.Settles = true ∧ c.Erases = false ∧ (c.reply last).lastError.getD last = .success) ∨
      (c.Settles = false ∧ c.Erases = false ∧
        ∃ code, c.failure = some code ∧ (c.reply last).lastError.getD last = code) ∨
      (c.Settles = false ∧ c.failure = none ∧
        (c.reply last).lastError.getD last = if c.Erases then .success else last) := by
  cases c with
  | call c r returns =>
    -- A reset sets the last error to success, as one that has been read.
    by_cases hreset : c = .deviceReset
    · subst hreset
      refine .inl ⟨rfl, rfl, ?_⟩
      rcases returns with ⟨-, -, hne⟩ | ⟨-, -, hlast⟩ | ⟨-, hwrites, -⟩
      · exact absurd rfl hne
      · change r.lastError.getD last = _
        rw [hlast]
        rfl
      · exact absurd trivial hwrites
    have hsettles : (ThreadCall.call c r returns).Settles = false := by
      cases c <;> first | rfl | exact absurd rfl hreset
    have herases : (ThreadCall.call c r returns).Erases =
        (decide (r.code = .success) && decide (r.lastError = some .success)) := by
      -- Any other call of the library has one of the three kinds of reply.
      cases c <;> first | rfl | exact absurd rfl hreset
    rw [hsettles, herases]
    exact .inr ((returns.reported.leaves last).imp (⟨rfl, ·⟩) (⟨rfl, ·⟩))
  | other c allocated =>
    exact .inr (((c.reply_reported allocated).leaves last).imp (⟨rfl, ·⟩) (⟨rfl, ·⟩))
  | initCryptoContext code returns => exact absurd rfl (h code returns)
  | getLastError => exact .inl ⟨rfl, rfl, rfl⟩

end ThreadCall

/-- A call of a thread. -/
structure ThreadEvent (T : Type) where
  thread : T
  call : ThreadCall

variable {T : Type} [DecidableEq T]

/-- The last errors of the threads after one more call. -/
def lastErrorStep (lastErrors : T → HazeError) (e : ThreadEvent T) : T → HazeError :=
  Function.update lastErrors e.thread
    ((e.call.reply (lastErrors e.thread)).lastError.getD (lastErrors e.thread))

/-- The last errors of the threads after a run; each thread starts with none. -/
def lastErrors (es : List (ThreadEvent T)) : T → HazeError :=
  es.foldl lastErrorStep fun _ => .success

/-- What a thread has to read after one more call. -/
def owedStep (t : T) (owed : HazeError) (e : ThreadEvent T) : HazeError :=
  if e.thread ≠ t then owed else if e.call.Settles then .success else e.call.failure.getD owed

/-- What a thread has to read after a run: the code of its most recent call that failed since it
last read its last error or reset the device, and success if there is none. -/
def owed (t : T) (es : List (ThreadEvent T)) : HazeError := es.foldl (owedStep t) .success

/-- The calls of a run on the shared state, each made as a whole. -/
def World.events (F : Fhetch P M) : World P M → List (T × Invocation P) → List (ThreadEvent T)
  | _, [] => []
  | w, (t, i) :: is =>
    ⟨t, .call i.call (i.run F w).1 (i.call.run_returns F i.env w)⟩ :: events F (w.after F i) is

/-- One call keeps a thread's last error what the thread has to read, unless it erases a failure or
is a failure of the bridge with another code. -/
theorem step_iff {t : T} {lastErrors : T → HazeError} {owed : HazeError} (h : lastErrors t = owed)
    (e : ThreadEvent T) : lastErrorStep lastErrors e t = owedStep t owed e ↔
      (e.thread = t → e.call.Keeps owed) := by
  unfold lastErrorStep owedStep
  -- The events of other threads change neither side.
  by_cases ht : e.thread = t
  · rw [if_neg (not_not.mpr ht), ht, Function.update_self, h, forall_prop_of_true rfl]
    by_cases hbridge : ∃ code returns, e.call = .initCryptoContext code returns
    · -- The last error stays, and the thread has the bridge's failure to read.
      obtain ⟨code, returns, hcall⟩ := hbridge
      rw [hcall]
      change owed = (if code = .success then none else some code).getD owed ↔ _
      constructor
      · refine fun heq => ⟨fun hfalse => absurd hfalse Bool.false_ne_true, ?_⟩
        rintro code' returns' hsame hcode
        cases hsame
        rwa [if_neg hcode] at heq
      · rintro ⟨-, hkept⟩
        split_ifs with hcode
        · rfl
        · exact hkept code returns rfl hcode
    push Not at hbridge
    rw [ThreadCall.keeps_iff hbridge]
    -- The call settles the debt, owes a new error, or leaves it.
    rcases e.call.leaves hbridge owed with ⟨hsettles, herases, hlast⟩ |
      ⟨hsettles, herases, code, hfailure, hlast⟩ | ⟨hsettles, hfailure, hlast⟩
    · rw [hlast, hsettles, herases]
      exact iff_of_true rfl fun hfalse => absurd hfalse Bool.false_ne_true
    · rw [hlast, hsettles, herases, hfailure]
      exact iff_of_true rfl fun hfalse => absurd hfalse Bool.false_ne_true
    · rw [hlast, hsettles, hfailure]
      rcases herases : e.call.Erases with _ | _
      · exact iff_of_true rfl fun hfalse => absurd hfalse Bool.false_ne_true
      -- A success that is written over a pending error is the only difference.
      · exact ⟨fun heq _ => heq.symm, fun hs => (hs rfl).symm⟩
  · rw [if_pos ht, Function.update_of_ne (Ne.symm ht)]
    exact iff_of_true h fun heq => absurd heq ht

/-- After a run a thread reads what it has to read, at every point of the run, if and only if no
call of the thread that succeeds erases a failure that it has yet to read, and the bridge only fails
on it with the code that it has yet to read. -/
theorem lastError_sticky (t : T) (es : List (ThreadEvent T)) :
    (∀ fs, fs <+: es → (hazeGetLastError (lastErrors fs t)).code = owed t fs) ↔
      ∀ fs e, fs ++ [e] <+: es → e.thread = t → e.call.Keeps (owed t fs) := by
  have hlast : ∀ fs (e : ThreadEvent T),
      lastErrors (fs ++ [e]) = lastErrorStep (lastErrors fs) e := fun fs e => by
    rw [lastErrors, List.foldl_append]
    rfl
  have howed : ∀ fs e, owed t (fs ++ [e]) = owedStep t (owed t fs) e := fun fs e => by
    rw [owed, List.foldl_append]
    rfl
  constructor
  · intro h fs e hprefix
    have hbefore : lastErrors fs t = owed t fs := h fs ((List.prefix_append fs [e]).trans hprefix)
    have hafter := h (fs ++ [e]) hprefix
    rw [hlast, howed] at hafter
    exact (step_iff hbefore e).mp hafter
  · intro h fs
    -- By induction on the prefix, since each step agrees exactly where its call keeps what is owed.
    induction fs using List.reverseRecOn with
    | nil => exact fun _ => rfl
    | append_singleton fs e ih =>
      intro hprefix
      have hbefore : lastErrors fs t = owed t fs := ih ((List.prefix_append fs [e]).trans hprefix)
      rw [hlast, howed]
      exact (step_iff hbefore e).mpr (h fs e hprefix)

/-- An allocation without a ring dimension fails, and freeing the null pointer succeeds. -/
def erasedFailure : List (Unit × Invocation UInt64) :=
  (scalarProgram [.malloc true 8, .free .null]).map ((), ·)

/-- The thread has the failure to read, and reads a success. -/
theorem lastError_sticky_counterexample :
    let es := World.events scalarRing .init erasedFailure
    owed () es = .configErr ∧ (hazeGetLastError (lastErrors es ())).code = .success := by
  decide +kernel

end Haze
