import Haze.Core.PolynomialIo
import Haze.Runtime.Finalizations

/-!
# Outputs read back from documents

A flush reads each output back from the JSON document that the library saves its polynomial as. The
runtime knows nothing of the document's layout (`extract_ofDocuments`), and cuts or
pads what it reads to the size of an allocation. `flush_documents` says when a flush succeeds, and
what the tagged addresses hold then.
-/

namespace Haze

variable {P M N : Type}

/-- The values are the words that the document reads as; none are a failure. -/
theorem extract_ofDocuments (env : CompilerReplies P) (toWord : Json N → Option UInt64)
    (docs : P → ProbeName → Option (Json N)) (poly : P) (tag : ProbeName)
    (values : List UInt64) :
    (env.ofDocuments toWord docs).extractPolynomialValues poly tag = some values ↔
      values ≠ [] ∧ ∃ doc, docs poly tag = some doc ∧ ReadsAs toWord doc values := by
  have hsaved : (env.ofDocuments toWord docs).savedValues poly tag = some values ↔
      ∃ doc, docs poly tag = some doc ∧ ReadsAs toWord doc values := by
    simp only [← documentValues_eq_some_iff]
    exact Option.bind_eq_some_iff
  rw [← hsaved]
  unfold CompilerReplies.extractPolynomialValues
  rcases (env.ofDocuments toWord docs).savedValues poly tag with _ | _ | ⟨v, vs⟩
  · simp
  · simp +contextual [eq_comm]
  · constructor
    · rintro ⟨⟩
      exact ⟨List.cons_ne_nil _ _, rfl⟩
    · exact And.right

/-- An output is there after the replay, and its document reads as some values. -/
def ReadBack (env : CompilerReplies P) (toWord : Json N → Option UInt64)
    (docs : P → ProbeName → Option (Json N)) (w : World P M) (name : ProbeName)
    (values : List UInt64) : Prop :=
  values ≠ [] ∧ ∃ poly doc, env.result (World.taggedOutputs env w) name = some poly ∧
    docs poly name = some doc ∧ ReadsAs toWord doc values

open World

section

variable {F : Fhetch P M} {env : CompilerReplies P} {toWord : Json N → Option UInt64}
  {docs : P → ProbeName → Option (Json N)} {w : World P M}

/-- The runtime decodes an output to what is read back for it. -/
theorem decoded_ofDocuments (entry : Sigma fun _ : DevAddr => ProbeName) (values : List UInt64) :
    decoded (env.ofDocuments toWord docs) (taggedOutputs env w) entry = some values ↔
      ReadBack env toWord docs w entry.2 values := by
  unfold decoded ReadBack
  rw [Option.bind_eq_some_iff]
  constructor
  · rintro ⟨poly, hpoly, hvalues⟩
    rw [extract_ofDocuments] at hvalues
    obtain ⟨hne, doc, hdoc, hreads⟩ := hvalues
    exact ⟨hne, poly, doc, hpoly, hdoc, hreads⟩
  · rintro ⟨hne, poly, doc, hpoly, hdoc, hreads⟩
    exact ⟨poly, hpoly, (extract_ofDocuments ..).mpr ⟨hne, doc, hdoc, hreads⟩⟩

/-- A flush of an open recording with something tagged, by what is read back for each output. -/
theorem flush_outputs (hw : w.Inv) (hcap : capturedOutputs w.compiler = [])
    (hformat : w.config.unsupportedDataFormat = false) (htagged : w.RecordingTagged) :
    let r := hazeFlush F env w
    (r.1.code = .success ↔ env.stopSucceeds = true ∧ (w.hookHadError || env.hookFails) = false ∧
      env.replaySucceeds = true ∧ ∀ a name, AList.lookup a w.epoch.pendingOutputs = some name →
        a ∈ w.allocator.allocSet ∧
          ∃ values, decoded env (taggedOutputs env w) ⟨a, name⟩ = some values) ∧
    (r.1.code = .success → ∀ a name values, AList.lookup a w.epoch.pendingOutputs = some name →
      decoded env (taggedOutputs env w) ⟨a, name⟩ = some values →
        r.2.shadow a = some (values.takeD w.allocator.wantElems 0)) ∧
    r.2.epoch = .init := by
  intro r
  have hc := hw.epoch.consistent
  -- The format is supported, so the flush finalizes.
  have hrun : r = Shim.setInternalResult (finalizeLocked F env true) w := hazeFlush_run hformat
  have hstate : r.2 = (finalizeLocked F env true w).2 := by
    rw [hrun]
    exact Shim.replyWith_state ..
  have hok : r.1.code = .success ↔ (finalizeLocked F env true w).1 = .ok () := by
    rw [hrun]
    exact setInternalResult_success
  -- A finalization succeeds exactly where it completes, and then with one state.
  have hiff : ∀ w', finalizeLocked F env true w = (.ok (), w') ↔
      Completes env true w ∧ w' = finalized F env true w := fun _ =>
    finalize_ok_iff true hc hcap htagged.1 htagged.2
  have hcompletes : r.1.code = .success ↔ Completes env true w :=
    ⟨fun h => ((hiff _).mp (Prod.ext (hok.mp h) rfl)).1,
      fun h => hok.mpr (congrArg Prod.fst ((hiff _).mpr ⟨h, rfl⟩))⟩
  refine ⟨hcompletes.trans ⟨fun h => ?_, ?_⟩, fun hsuccess a name values ha hdecoded => ?_, ?_⟩
  -- The four conditions are the stages of the finalization, in its order.
  · refine ⟨h.stop, h.hook, h.replay rfl, fun a name ha => ?_⟩
    obtain ⟨hdecoded, hlive⟩ := h.outputs rfl ⟨a, name⟩ (mem_outputs.mpr ha)
    exact ⟨hlive, Option.isSome_iff_exists.mp hdecoded⟩
  · rintro ⟨hstop, hhook, hreplay, houtputs⟩
    refine ⟨hstop, hhook, fun _ => hreplay, fun _ entry hentry => ?_⟩
    obtain ⟨hlive, hdecoded⟩ := houtputs entry.1 entry.2 (mem_outputs.mp hentry)
    exact ⟨Option.isSome_iff_exists.mpr hdecoded, hlive⟩
  · have hmem : (⟨a, name⟩ : Sigma fun _ : DevAddr => ProbeName) ∈ World.outputs env w :=
      mem_outputs.mpr ha
    rw [hstate, (hiff _).mpr ⟨hcompletes.mp hsuccess, rfl⟩]
    calc
      (populated env (taggedOutputs env w) (World.outputs env w) w.allocator).shadow a
        = some (((decoded env (taggedOutputs env w) ⟨a, name⟩).getD []).takeD
            w.allocator.wantElems 0) := shadow_populated_of_mem (outputs_keys_nodup _ w) hmem
      _ = some (values.takeD w.allocator.wantElems 0) := by rw [hdecoded, Option.getD_some]
  -- Whatever the result, the epoch that was recorded is over.
  · obtain ⟨v, -, hends, -⟩ := finalize_ends (F := F) env true hc htagged.1
    rw [hstate, hends]
    rfl

/-- A flush of an open recording in which something is tagged succeeds if and only if the trace is
written, no failure of the hook was left over or comes up, the replay succeeds, and every output is
read back from its document to a live address. The address then holds the values, cut or padded with
zeros to the size of an allocation. In any case the epoch is over. -/
theorem flush_documents (hw : w.Reachable F) (hformat : w.config.unsupportedDataFormat = false)
    (htagged : w.RecordingTagged) :
    let r := hazeFlush F (env.ofDocuments toWord docs) w
    (r.1.code = .success ↔ env.stopSucceeds = true ∧ (w.hookHadError || env.hookFails) = false ∧
      env.replaySucceeds = true ∧ ∀ a name, AList.lookup a w.epoch.pendingOutputs = some name →
        a ∈ w.allocator.allocSet ∧ ∃ values, ReadBack env toWord docs w name values) ∧
    (r.1.code = .success → ∀ a name values, AList.lookup a w.epoch.pendingOutputs = some name →
      ReadBack env toWord docs w name values →
        r.2.shadow a = some (values.takeD w.allocator.wantElems 0)) ∧
    r.2.epoch = .init := by
  have hdecoded : ∀ a name values,
      decoded (env.ofDocuments toWord docs) (taggedOutputs (env.ofDocuments toWord docs) w)
        ⟨a, name⟩ = some values ↔ ReadBack env toWord docs w name values :=
    fun a name values => decoded_ofDocuments ⟨a, name⟩ values
  have hflush := @flush_outputs P M F (env.ofDocuments toWord docs) w hw.inv hw.captured hformat htagged
  simp only [hdecoded] at hflush
  exact hflush

end

/-- A document with the values behind a member that has none. -/
def scalarDocument (x : UInt64) : Json UInt64 :=
  .object [("format", .string "evaluation"),
    ("residues", .array [.object [("modulus", .number 17), ("values", .array [.number x])]])]

/-- The word that a number is. -/
def numberWord : Json UInt64 → Option UInt64
  | .number n => some n
  | _ => none

/-- The upload is read back from such a document. -/
theorem flush_documents_example :
    (hazeFlush scalarRing
      (scalarReplies.ofDocuments numberWord fun x _ => some (scalarDocument x))
      taggedUpload).2.shadow ⟨kHbmBase⟩ = some [5] := by
  obtain ⟨-, hwords, -⟩ := @flush_documents _ _ _ scalarRing scalarReplies numberWord
    (fun x _ => some (scalarDocument x)) taggedUpload ⟨_, rfl⟩ (by decide +kernel)
    (by decide +kernel)
  refine hwords (by decide +kernel) ⟨kHbmBase⟩ (.hazeOut 0) [5] (by decide +kernel)
    ⟨by decide, 5, scalarDocument 5, by decide +kernel, rfl, ?_⟩
  exact documentValues_eq_some_iff.mp rfl

end Haze
