import Haze.Runtime.Flush
import Haze.Runtime.Keeping

/-!
# Probe names

The compiler finds a tagged polynomial again by its name alone. `tagNames` reads the names that were
tagged in the current epoch off the calls to the compiler, and `names_unique` says that they are
distinct as texts at every point of every run. An input takes its name from a counter that the
binding of the input advances, a multi-residue input is tagged once under each name, and the
outputs' names are distinct because the map of pending outputs is injective.
-/

namespace Haze

variable {P M : Type}

/-! ## Names as texts -/

/-- The text of a name. -/
def ProbeName.text : ProbeName → String
  | .hazeIn n => "haze_in_" ++ Nat.repr n
  | .hazeOut n => "haze_out_" ++ Nat.repr n
  | .hazeMrpIn n => "haze_mrp_in_" ++ Nat.repr n
  | .hazeMrpOut n => "haze_mrp_out_" ++ Nat.repr n

/-- The decimal digits of a number are its own. -/
theorem toDigits_injective {m n : ℕ} (h : Nat.toDigits 10 m = Nat.toDigits 10 n) : m = n := by
  have hm : Nat.ofDigitChars 10 (Nat.toDigits 10 m) 0 = m := Nat.ofDigitChars_ten_toDigits
  have hn : Nat.ofDigitChars 10 (Nat.toDigits 10 n) 0 = n := Nat.ofDigitChars_ten_toDigits
  rw [← hm, h, hn]

/-- Its decimal text is its own. -/
theorem repr_injective {m n : ℕ} (h : Nat.repr m = Nat.repr n) : m = n := by
  rw [Nat.repr_eq_ofList_toDigits, Nat.repr_eq_ofList_toDigits, String.ofList_inj] at h
  exact toDigits_injective h

/-- Different names are different texts. -/
theorem ProbeName.text_injective {a b : ProbeName} (h : a.text = b.text) : a = b := by
  have hl := congrArg String.toList h
  cases a <;> cases b <;> simp only [text, String.toList_append] at hl
  all_goals
    first
    -- two kinds differ in their fixed texts
    | simp at hl; done
    | exact congrArg _ (repr_injective ((String.append_right_inj _).mp h))

/-! ## The names that are tagged -/

/-- The names under which inputs and outputs were tagged, in order. -/
structure TagNames where
  inputs : List ProbeName
  outputs : List ProbeName

/-- The tagged names of the epoch after one more call; clearing the captures ends the epoch. -/
def CompilerCall.tag (names : TagNames) : CompilerCall P M → TagNames
  | .tagInput name _ => { names with inputs := names.inputs ++ [name] }
  | .tagInputMrp name _ => { names with inputs := names.inputs ++ [name] }
  | .tagOutput name _ => { names with outputs := names.outputs ++ [name] }
  | .tagOutputMrp name _ => { names with outputs := names.outputs ++ [name] }
  | .clearCaptured => ⟨[], []⟩
  | _ => names

/-- The names that were tagged in the current epoch. -/
def tagNames (calls : List (CompilerCall P M)) : TagNames := calls.foldl CompilerCall.tag ⟨[], []⟩

/-- No name was tagged twice. -/
structure TagNames.Distinct (names : TagNames) : Prop where
  inputs : names.inputs.Nodup
  outputs : names.outputs.Nodup

/-- No name is tagged twice by calls that are made after `names` were tagged. -/
def TagNames.StayDistinct (names : TagNames) (cs : List (CompilerCall P M)) : Prop :=
  ∀ ds, ds <+: cs → (ds.foldl CompilerCall.tag names).Distinct

namespace TagNames

variable {names : TagNames} {cs ds : List (CompilerCall P M)}

/-- Names stay distinct along two lists of calls when they do along each in its turn. -/
theorem StayDistinct.append (hc : names.StayDistinct cs)
    (hd : (cs.foldl CompilerCall.tag names).StayDistinct ds) : names.StayDistinct (cs ++ ds) := by
  intro es hes
  rcases List.prefix_or_prefix_of_prefix hes (List.prefix_append cs ds) with hcs | ⟨fs, rfl⟩
  · exact hc es hcs
  · rw [List.foldl_append]
    exact hd fs ((List.prefix_append_right_inj cs).mp hes)

variable (cs) in
/-- Calls that tag nothing. -/
theorem StayDistinct.untagged (h : names.Distinct) (hc : ∀ c ∈ cs, c.tag names = names) :
    names.StayDistinct cs ∧ cs.foldl CompilerCall.tag names = names := by
  have hall : ∀ ds : List (CompilerCall P M), (∀ c ∈ ds, c.tag names = names) →
      ds.foldl CompilerCall.tag names = names := by
    intro ds
    induction ds with
    | nil => exact fun _ => rfl
    | cons d ds ih =>
      intro hds
      rw [List.foldl_cons, hds d (List.mem_cons_self ..)]
      exact ih fun c hc => hds c (List.mem_cons_of_mem _ hc)
  refine ⟨fun ds hds => ?_, hall cs hc⟩
  rw [hall ds fun c hcd => hc c (hds.subset hcd)]
  exact h

/-- One call. -/
theorem StayDistinct.call {c : CompilerCall P M} (h : names.Distinct)
    (hc : (c.tag names).Distinct) : names.StayDistinct [c] := by
  intro ds hds
  rcases List.prefix_cons_iff.mp hds with rfl | ⟨es, rfl, hes⟩
  · exact h
  · rw [List.prefix_nil.mp hes]
    exact hc

/-- A name that no input has yet. -/
theorem Distinct.input (h : names.Distinct) {name : ProbeName} (hn : name ∉ names.inputs) :
    ({ names with inputs := names.inputs ++ [name] } : TagNames).Distinct where
  inputs := List.Nodup.append h.inputs (List.nodup_singleton name) fun _ hn' hmem =>
    hn (List.mem_singleton.mp hmem ▸ hn')
  outputs := h.outputs

end TagNames

/-! ## The names that the runtime still gives -/

namespace World

/-- What the runtime remembers of the names it gave: the counter of the inputs is above all of them,
a multi-residue input is remembered under the name that it was tagged with, and every such name was
given to one leading address. No output is tagged before the epoch is finalized. -/
structure GivesNames (w : World P M) : Prop where
  distinct : TagNames.StayDistinct ⟨[], []⟩ w.compiler
  inputs : ∀ name ∈ (tagNames w.compiler).inputs,
    (∃ k < w.epoch.inputCounter, name = .hazeIn k) ∨ name ∈ w.epoch.mrpInputTaggedNames
  tagged : ∀ name ∈ w.epoch.mrpInputTaggedNames, ∃ k, name = .hazeMrpIn k
  leading : ∀ a name, AList.lookup a w.epoch.mrpInNames = some name →
    ∃ k < w.epoch.mrpInNameCounter, name = .hazeMrpIn k
  injective : UMap.Injective w.epoch.mrpInNames
  outputs : (tagNames w.compiler).outputs = []

/-- The part of the epoch that names its inputs. -/
def inputNaming (s : EpochState P) : ℕ × Finset ProbeName × UMap DevAddr ProbeName × ℕ :=
  (s.inputCounter, s.mrpInputTaggedNames, s.mrpInNames, s.mrpInNameCounter)

/-- The names of the inputs are apart from the registry. -/
theorem apart_inputNaming : EpochState.Apart (@inputNaming P) where
  registry h := by
    unfold EpochState.RegistryOnly at h
    rw [h]
    rfl
  tags h := by
    rw [h.frame]
    rfl

/-- The names after more calls continue those before. -/
theorem tagNames_append (cs ds : List (CompilerCall P M)) :
    tagNames (cs ++ ds) = ds.foldl CompilerCall.tag (tagNames cs) := List.foldl_append

variable {w : World P M}

/-- The names that were given are distinct. -/
theorem GivesNames.current (h : w.GivesNames) : (tagNames w.compiler).Distinct :=
  h.distinct _ List.prefix_rfl

/-- Nothing that names are given from has changed, and no call was made that tags. -/
theorem GivesNames.untagged (h : w.GivesNames) {w' : World P M} (cs : List (CompilerCall P M))
    (hnaming : inputNaming w'.epoch = inputNaming w.epoch) (hlog : w'.compiler = w.compiler ++ cs)
    (hcs : ∀ c ∈ cs, ∀ names, c.tag names = names) : w'.GivesNames := by
  simp only [inputNaming, Prod.mk.injEq] at hnaming
  obtain ⟨hcounter, htagged, hin, hincounter⟩ := hnaming
  obtain ⟨hstay, hnames⟩ := TagNames.StayDistinct.untagged cs h.current fun c hc => hcs c hc _
  rw [← tagNames_append, ← hlog] at hnames
  constructor
  · rw [hlog]
    exact h.distinct.append hstay
  · rw [hnames, hcounter, htagged]
    exact h.inputs
  · rw [htagged]
    exact h.tagged
  · rw [hin, hincounter]
    exact h.leading
  · rw [hin]
    exact h.injective
  · rw [hnames]
    exact h.outputs

/-- What counts is how inputs are named, and the compiler's log. -/
theorem GivesNames.naming (h : w.GivesNames) {w' : World P M}
    (hnaming : inputNaming w'.epoch = inputNaming w.epoch) (hlog : w'.compiler = w.compiler) :
    w'.GivesNames := by
  refine h.untagged [] hnaming ?_ fun c hc => absurd hc List.not_mem_nil
  rw [hlog, List.append_nil]

/-- No epoch is open, and so no name is given. -/
theorem GivesNames.of_init (hepoch : w.epoch = .init)
    (hdistinct : TagNames.StayDistinct ⟨[], []⟩ w.compiler)
    (hnames : tagNames w.compiler = ⟨[], []⟩) : w.GivesNames where
  distinct := hdistinct
  inputs name hn := by
    rw [hnames] at hn
    exact absurd hn List.not_mem_nil
  tagged name hn := by
    rw [hepoch] at hn
    exact absurd hn (Finset.notMem_empty name)
  leading a name hl := by
    rw [hepoch] at hl
    simp [EpochState.init] at hl
  injective := by
    rw [hepoch]
    exact UMap.injective_empty
  outputs := by rw [hnames]

/-- Opening a session gives no names. -/
theorem GivesNames.session (F : Fhetch P M) (h : w.GivesNames) (env : CompilerReplies P) :
    (w.act F (.session env)).GivesNames := by
  obtain ⟨recording, initialized, cs, hcs, he⟩ := session_frame (F := F) env w
  refine h.untagged cs (by rw [he]; rfl) (by rw [he]) fun c hc names => ?_
  have := hcs c hc
  cases c <;> first | rfl | exact this.elim

/-- An input is tagged under the name of the counter, which advances. -/
theorem GivesNames.tagInput (h : w.GivesNames) (a : DevAddr) (poly : P) :
    ({ w with
      epoch := w.epoch.bindInput a poly
      compiler := w.compiler ++ [.tagInput (.hazeIn w.epoch.inputCounter) poly] } :
        World P M).GivesNames := by
  have hnames : tagNames (w.compiler ++ [.tagInput (.hazeIn w.epoch.inputCounter) poly]) =
      { tagNames w.compiler with
        inputs := (tagNames w.compiler).inputs ++ [.hazeIn w.epoch.inputCounter] } :=
    tagNames_append w.compiler _
  -- The counter's number has not been given to an input yet, and no group has such a name.
  have hnew : .hazeIn w.epoch.inputCounter ∉ (tagNames w.compiler).inputs := by
    intro hmem
    rcases h.inputs _ hmem with ⟨k, hk, hname⟩ | htagged
    · cases hname
      exact Nat.lt_irrefl _ hk
    · obtain ⟨k, hname⟩ := h.tagged _ htagged
      cases hname
  refine ⟨h.distinct.append (.call h.current (h.current.input hnew)), fun name hn => ?_, h.tagged,
    h.leading, h.injective, ?_⟩
  -- The names given so far lie below the new counter.
  · rw [hnames] at hn
    rcases List.mem_append.mp hn with hn | hn
    · refine (h.inputs name hn).imp_left ?_
      rintro ⟨k, hk, rfl⟩
      exact ⟨k, Nat.lt_succ_of_lt hk, rfl⟩
    · exact .inl ⟨_, Nat.lt_succ_self _, List.mem_singleton.mp hn⟩
  · rw [hnames]
    exact h.outputs

/-- A multi-residue input is tagged under a name that none was tagged with. -/
theorem GivesNames.tagInputMrp (h : w.GivesNames) {name : ProbeName} {k : ℕ} (mrp : M)
    (hk : name = .hazeMrpIn k) (hn : name ∉ w.epoch.mrpInputTaggedNames) :
    ({ w with
      epoch := w.epoch.act (.tagMrpInputName name)
      compiler := w.compiler ++ [.tagInputMrp name mrp] } : World P M).GivesNames := by
  have hnames : tagNames (w.compiler ++ [.tagInputMrp name mrp]) =
      { tagNames w.compiler with inputs := (tagNames w.compiler).inputs ++ [name] } :=
    tagNames_append w.compiler _
  -- An input has a name of the other kind, and a group's name is recorded once it is given.
  have hnew : name ∉ (tagNames w.compiler).inputs := by
    intro hmem
    rcases h.inputs _ hmem with ⟨j, -, hname⟩ | htagged
    · rw [hk] at hname
      cases hname
    · exact hn htagged
  refine ⟨h.distinct.append (.call h.current (h.current.input hnew)), fun n hn' => ?_,
    fun n hn' => ?_, h.leading, h.injective, ?_⟩
  · rw [hnames] at hn'
    rcases List.mem_append.mp hn' with hn' | hn'
    · exact (h.inputs n hn').imp_right Finset.mem_insert_of_mem
    · rw [List.mem_singleton.mp hn']
      exact .inr (Finset.mem_insert_self name _)
  · rcases Finset.mem_insert.mp hn' with rfl | hn'
    · exact ⟨k, hk⟩
    · exact h.tagged n hn'
  · rw [hnames]
    exact h.outputs

/-- The name of a leading address is the one it has, or that of the counter, which advances. -/
theorem GivesNames.nameInput (h : w.GivesNames) (leading : DevAddr) :
    ∃ name s, EpochState.mrpGroupNameLocked false leading w.epoch = (.ok name, s) ∧
      ({ w with epoch := s } : World P M).GivesNames ∧ ∃ k, name = .hazeMrpIn k := by
  unfold EpochState.mrpGroupNameLocked
  rw [if_neg Bool.false_ne_true]
  rcases hl : AList.lookup leading w.epoch.mrpInNames with _ | name
  · refine ⟨_, _, rfl, ⟨h.distinct, h.inputs, h.tagged, fun a name ha => ?_, ?_, h.outputs⟩, _, rfl⟩
    · dsimp only at ha
      rw [UMap.lookup_insert_ite] at ha
      split_ifs at ha
      · exact ⟨_, Nat.lt_succ_self _, (Option.some.inj ha).symm⟩
      · obtain ⟨k, hk, hname⟩ := h.leading a name ha
        exact ⟨k, Nat.lt_succ_of_lt hk, hname⟩
    · refine h.injective.insert fun a ha => ?_
      obtain ⟨k, hk, hname⟩ := h.leading a _ ha
      cases hname
      exact Nat.lt_irrefl _ hk
  · obtain ⟨k, -, hname⟩ := h.leading leading name hl
    exact ⟨name, w.epoch, rfl, h, k, hname⟩

/-- A plain action of the epoch names inputs by their counters. -/
theorem inputNaming_act (s : EpochState P) {x : EpochAction P} (hx : x.Plain (.all : Domain P M)) :
    inputNaming (s.act x) = match x with
      | .invalidate a => (s.inputCounter, s.mrpInputTaggedNames, AList.erase a s.mrpInNames,
          s.mrpInNameCounter)
      | _ => inputNaming s := by
  -- The naming of inputs is touched by an invalidation alone.
  cases x with
  | register addrs moduli name => exact apart_inputNaming.register addrs moduli name s
  | tagOutput a => exact apart_inputNaming.tagOutput a s
  | nameGroup output leading =>
    cases output with
    | false => exact hx.elim
    | true =>
      change inputNaming (EpochState.mrpGroupNameLocked true leading s).2 = _
      unfold EpochState.mrpGroupNameLocked
      rw [if_pos rfl]
      rcases AList.lookup leading s.mrpOutNames with _ | name <;> rfl
  | invalidate a =>
    have h := apart_inputNaming.evictGroupsOf a s
    simp only [inputNaming, Prod.mk.injEq] at h
    obtain ⟨hcounter, htagged, hin, hincounter⟩ := h
    simp only [EpochState.act, EpochState.invalidate, inputNaming, hcounter, htagged, hin, hincounter]
  | bindInput a poly => exact hx.elim
  | tagMrpInputName name => exact hx.elim
  | clear => exact hx.elim
  | _ => rfl

/-- A plain action of the epoch gives no name twice. -/
theorem GivesNames.epoch (h : w.GivesNames) {x : EpochAction P} (hx : x.Plain (.all : Domain P M)) :
    ({ w with epoch := w.epoch.act x } : World P M).GivesNames := by
  have hnaming := inputNaming_act w.epoch hx
  cases x with
  | invalidate a =>
    simp only [inputNaming, Prod.mk.injEq] at hnaming
    obtain ⟨hcounter, htagged, hin, hincounter⟩ := hnaming
    refine ⟨h.distinct, ?_, ?_, fun b name hb => ?_, ?_, h.outputs⟩
    · rw [hcounter, htagged]
      exact h.inputs
    · rw [htagged]
      exact h.tagged
    · rw [hin, UMap.lookup_erase_ite] at hb
      rw [hincounter]
      split_ifs at hb
      exact h.leading b name hb
    · rw [hin]
      exact h.injective.erase
  | _ => exact h.naming hnaming rfl

/-! ## The names of the outputs -/

/-- The name of an output that a call tags. -/
def outputName : CompilerCall P M → Option ProbeName
  | .tagOutput name _ => some name
  | .tagOutputMrp name _ => some name
  | _ => none

/-- Calls that each tag an output. -/
theorem tag_outputs {cs : List (CompilerCall P M)} (hcs : ∀ c ∈ cs, (outputName c).isSome)
    (names : TagNames) : cs.foldl CompilerCall.tag names =
      { names with outputs := names.outputs ++ cs.filterMap outputName } := by
  induction cs generalizing names with
  | nil => simp
  | cons c cs ih =>
    have hc := hcs c (List.mem_cons_self ..)
    have hrest := ih fun d hd => hcs d (List.mem_cons_of_mem _ hd)
    rw [List.foldl_cons, hrest]
    cases c <;>
      first | exact absurd hc Bool.false_ne_true | simp [CompilerCall.tag, outputName]

/-- Tagging the outputs makes only calls that tag one. -/
theorem outputName_tagCalls {F : Fhetch P M} {env : CompilerReplies P} {c : CompilerCall P M}
    (hc : c ∈ tagCalls F env w) : (outputName c).isSome = true := by
  rcases List.mem_append.mp hc with hc | hc
  · obtain ⟨entry, -, he⟩ := List.mem_filterMap.mp hc
    obtain ⟨poly, -, rfl⟩ := Option.map_eq_some_iff.mp he
    rfl
  · obtain ⟨name, -, he⟩ := List.mem_filterMap.mp hc
    obtain ⟨group, -, rfl⟩ := Option.map_eq_some_iff.mp he
    rfl

/-- Elements that each map to an element are mapped to these. -/
theorem filterMap_filterMap_some {α β γ : Type} {f : α → Option β} {g : β → Option γ} {h : α → γ}
    {l : List α} (hfg : ∀ a ∈ l, (f a).bind g = some (h a)) :
    (l.filterMap f).filterMap g = l.map h := by
  rw [List.filterMap_filterMap, ← List.filterMap_eq_map]
  exact List.filterMap_congr hfg

/-- The names that a finalization tags are those of the pending outputs and groups. -/
theorem outputNames_tagCalls (F : Fhetch P M) (env : CompilerReplies P) (hw : w.epoch.Valid) :
    (tagCalls F env w).filterMap outputName =
      (outputs env w).map Sigma.snd ++ env.groupOrder.order w.epoch.pendingMrpGroups.keys := by
  have houtputs : ((outputs env w).filterMap (outputCall (M := M) w.epoch)).filterMap outputName =
      (outputs env w).map Sigma.snd := by
    refine filterMap_filterMap_some fun entry he => ?_
    obtain ⟨poly, hp⟩ := UMap.mem_iff_lookup.mp
      (hw.consistent.pending_bound entry.1 (UMap.mem_of_lookup (mem_outputs.mp he)))
    rw [outputCall, hp]
    rfl
  have hgroups : ((env.groupOrder.order w.epoch.pendingMrpGroups.keys).filterMap
      (groupCall F w.epoch)).filterMap outputName =
        (env.groupOrder.order w.epoch.pendingMrpGroups.keys).map id := by
    refine filterMap_filterMap_some fun name hn => ?_
    rw [IterationOrder.mem_order] at hn
    obtain ⟨group, hg⟩ := UMap.mem_iff_lookup.mp
      (hw.consistent.pending_known name (AList.mem_keys.mpr hn))
    rw [groupCall, hg]
    rfl
  rw [tagCalls, List.filterMap_append, houtputs, hgroups, List.map_id]

/-- The names that a finalization tags are distinct. -/
theorem outputNames_nodup (F : Fhetch P M) (env : CompilerReplies P) (hw : w.epoch.Valid) :
    ((tagCalls F env w).filterMap outputName).Nodup := by
  rw [outputNames_tagCalls F env hw]
  refine List.Nodup.append (outputs_names_nodup env hw) ?_ fun name hout hgroup => ?_
  · exact (env.groupOrder.perm _).nodup_iff.mpr (AList.keys_nodup w.epoch.pendingMrpGroups)
  -- A group's name was assigned to its leading address, and no output's name is of that kind.
  obtain ⟨entry, he, rfl⟩ := List.mem_map.mp hout
  obtain ⟨k, -, hk⟩ := hw.outputsNamed.fresh entry.1 entry.2 (mem_outputs.mp he)
  rw [IterationOrder.mem_order] at hgroup
  obtain ⟨group, hg⟩ := UMap.mem_iff_lookup.mp
    (hw.consistent.pending_known entry.2 (AList.mem_keys.mpr hgroup))
  obtain ⟨-, hlead⟩ := hw.named.leading entry.2 group hg
  obtain ⟨j, -, hj⟩ := hw.named.fresh _ _ hlead
  rw [hk] at hj
  cases hj

/-- A finalization tags distinct outputs, and ends the epoch. -/
theorem GivesNames.finalize (F : Fhetch P M) (env : CompilerReplies P) (runReplay : Bool)
    (hw : w.epoch.Valid) (h : w.GivesNames) : (finalizeLocked F env runReplay w).2.GivesNames := by
  -- Without a recording nothing is announced.
  rcases hrec : w.epoch.recording
  · rw [finalize_idle runReplay hrec]
    exact h
  obtain ⟨v, ds, hv, hlog, hds⟩ := finalize_ends (F := F) env runReplay hw.consistent hrec
  rw [hv]
  -- The names of the outputs are announced together, before the captures are cleared.
  have htags : ∀ cs : List (CompilerCall P M), cs <+: tagCalls F env w →
      cs.foldl CompilerCall.tag (tagNames w.compiler) =
        { tagNames w.compiler with outputs := cs.filterMap outputName } := by
    intro cs hcs
    rw [tag_outputs fun c hc => outputName_tagCalls (hcs.subset hc), h.outputs, List.nil_append]
  have hnodup := outputNames_nodup F env hw
  have hcurrent : (tagNames (w.compiler ++ tagCalls F env w)).Distinct := by
    rw [tagNames_append, htags _ List.prefix_rfl]
    exact ⟨h.current.inputs, hnodup⟩
  have htagged : TagNames.StayDistinct ⟨[], []⟩ (w.compiler ++ tagCalls F env w) := by
    refine h.distinct.append fun cs hcs => ?_
    change (cs.foldl CompilerCall.tag (tagNames w.compiler)).Distinct
    rw [htags cs hcs]
    exact ⟨h.current.inputs, hnodup.sublist (hcs.filterMap outputName).sublist⟩
  obtain ⟨hstay, hsame⟩ := TagNames.StayDistinct.untagged ds hcurrent fun c hc => by
    rcases List.mem_pair.mp (hds.subset hc) with rfl | rfl <;> rfl
  have hend : TagNames.StayDistinct ⟨[], []⟩ v.compiler := by
    rw [hlog]
    exact htagged.append hstay
  -- The epoch starts over, so no name has been given in it.
  refine .of_init rfl (hend.append (.call (hend _ List.prefix_rfl) ?_)) (tagNames_append _ _)
  exact ⟨List.nodup_nil, List.nodup_nil⟩

/-! ## Every run -/

/-- Every primitive method gives names that are new. -/
theorem kept_givesNames (F : Fhetch P M) : Kept F (GivesNames (P := P) (M := M)) where
  known := Domain.all_known F _
  allocator w s h := h.naming rfl rfl
  config w c h := h.naming rfl rfl
  epoch w x hx h := h.epoch hx
  session env := .modify fun w h => h.session F env
  tagInput addr values n := tagInput_all (Expected.Keeps.iff_state.mpr fun w h =>
    h.tagInput addr (F.fromData values n))
  nameInput leading base mrp _ _ := by
    refine Expected.Keeps.iff_state.mpr fun w h => ?_
    -- The group has a name now, which is announced unless it has been.
    obtain ⟨name, s, hrun, hs, k, hk⟩ := h.nameInput leading
    have hname : onEpoch (EpochState.mrpGroupNameLocked false leading) w =
        (.ok name, { w with epoch := s }) := by
      rw [onEpoch, Expected.zoom_run, hrun]
    rw [Expected.bind_run_ok hname, tagMrpInputIfNewLocked, Expected.get_bind_run]
    split_ifs with htagged
    · exact hs
    · exact hs.tagInputMrp mrp hk htagged
  bindModulus polys q _ _ := by
    refine Expected.Keeps.iff_state.mpr fun w h => ?_
    unfold bindModulus
    split_ifs
    · refine h.untagged (polys.map (.bindModulus · q)) rfl rfl fun c hc names => ?_
      obtain ⟨poly, -, rfl⟩ := List.mem_map.mp hc
      rfl
    · exact h
  finalize env runReplay w hv h := h.finalize F env runReplay hv
  reset w h := by
    -- A reset clears the captures, and then everything that was announced.
    have hclear : TagNames.StayDistinct ⟨[], []⟩ (w.compiler ++ [.clearCaptured]) :=
      h.distinct.append (.call h.current ⟨List.nodup_nil, List.nodup_nil⟩)
    refine .of_init rfl (hclear.append (.call (hclear _ List.prefix_rfl) ?_)) ?_
    · rw [← tagNames, tagNames_append]
      exact ⟨List.nodup_nil, List.nodup_nil⟩
    · rw [resetAll, clearStateLocked, tagNames_append, tagNames_append]
      rfl

end World

/-- Names are unique within an epoch. -/
structure World.NamesUnique (w : World P M) : Prop where
  /-- At every point of the run so far, the inputs that were tagged in the epoch have distinct
  names. -/
  inputs : ∀ calls, calls <+: w.compiler → ((tagNames calls).inputs.map ProbeName.text).Nodup
  /-- Likewise the outputs. -/
  outputs : ∀ calls, calls <+: w.compiler → ((tagNames calls).outputs.map ProbeName.text).Nodup
  /-- No two addresses are pending under one name. -/
  pending : ∀ a b n m, AList.lookup a w.epoch.pendingOutputs = some n →
    AList.lookup b w.epoch.pendingOutputs = some m → n.text = m.text → a = b
  /-- No two addresses lead groups of one name. -/
  leading : ∀ a b n m, AList.lookup a w.epoch.mrpOutNames = some n →
    AList.lookup b w.epoch.mrpOutNames = some m → n.text = m.text → a = b
  /-- Likewise input groups. -/
  leadingInput : ∀ a b n m, AList.lookup a w.epoch.mrpInNames = some n →
    AList.lookup b w.epoch.mrpInNames = some m → n.text = m.text → a = b
  /-- A known group has the name of its leading address. -/
  named : ∀ n g, AList.lookup n w.epoch.knownMrpGroups = some g →
    AList.lookup (g.addrs.headD .null) w.epoch.mrpOutNames = some n
  /-- Known groups with different leading addresses have different names. -/
  groups : ∀ n m g g', AList.lookup n w.epoch.knownMrpGroups = some g →
    AList.lookup m w.epoch.knownMrpGroups = some g' →
    g.addrs.headD .null ≠ g'.addrs.headD .null → n.text ≠ m.text

/-- Probe names are unique within an epoch, after every sequence of critical sections and so after
every sequence of public calls, whatever the compiler answers. -/
theorem names_unique (F : Fhetch P M) (xs : List (CriticalSection P)) :
    (xs.foldl (CriticalSection.run F) (World.init : World P M)).NamesUnique := by
  have hinit : (World.init : World P M).GivesNames :=
    .of_init rfl (fun ds hds => by
      rw [List.prefix_nil.mp hds]
      exact ⟨List.nodup_nil, List.nodup_nil⟩) rfl
  have h := (World.kept_givesNames F).sections hinit xs
  have hv := CriticalSection.runAll_valid (F := F) (M := M) xs
  generalize xs.foldl (CriticalSection.run F) (World.init : World P M) = w at h hv
  refine ⟨fun calls hc => ?_, fun calls hc => ?_, fun a b n m ha hb hnm => ?_,
    fun a b n m ha hb hnm => ?_, fun a b n m ha hb hnm => ?_, fun n g hg => ?_,
    fun n m g g' hg hg' hne hnm => ?_⟩
  · exact (h.distinct calls hc).inputs.map fun _ _ => ProbeName.text_injective
  · exact (h.distinct calls hc).outputs.map fun _ _ => ProbeName.text_injective
  · exact hv.outputsNamed.injective a b n ha (ProbeName.text_injective hnm ▸ hb)
  · exact hv.named.injective a b n ha (ProbeName.text_injective hnm ▸ hb)
  · exact h.injective a b n ha (ProbeName.text_injective hnm ▸ hb)
  · exact (hv.named.leading n g hg).2
  · refine hne (hv.named.injective _ _ n (hv.named.leading n g hg).2 ?_)
    rw [ProbeName.text_injective hnm]
    exact (hv.named.leading m g' hg').2

end Haze
