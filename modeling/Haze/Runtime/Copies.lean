import Haze.Runtime.Computing
import Haze.Runtime.Journal

/-!
# Copies of several residues

A copy on the device stores a residue before it resolves the next, so that where the arrays overlap
it may read what it has written. `copies_simultaneous` says exactly when it copies what the sources
held before the call, as the operations on several residues do.

A copy that fails at some residue leaves the residues before it copied: on the device they are
bound, and from the host their words are replaced while a bound destination keeps its binding.
`failed_memcpyMrp_restores` says exactly when nothing of this is observed.
-/

namespace Haze

variable {P M V : Type}

open World (takePtrs)

/-- The copies that are made before the first source without a polynomial. -/
def copiesDone (F : Fhetch P M) :
    (DevAddr → Option P) → List (DevAddr × DevAddr) → List (DevAddr × DevAddr)
  | _, [] => []
  | v, (dst, src) :: residues =>
    match v src with
    | none => []
    | some p => (dst, src) :: copiesDone F (Writes.one v (dst, copyOf F p)) residues

namespace World

section

variable {F : Fhetch P M} {w : World P M}

/-- A copy of several residues makes the writes of its evaluation, or those before the first source
that it finds no polynomial at. -/
theorem copies_run (residues : List ((DevAddr × DevAddr) × UInt64)) (hw : w.Stocked) :
    let v := w.held F
    let looked := copiesLooked F v (residues.map Prod.fst)
    match evalCopies F v (residues.map Prod.fst) with
    | some writes => ∃ w', Expected.forEach (copyResidue F) residues w = (.ok (), w') ∧
      RecordsTo F w looked writes w'
    | none => ∃ e w', Expected.forEach (copyResidue F) residues w = (.error e, w') ∧
      RecordsTo F w looked (copiesMade F v (residues.map Prod.fst)) w' := by
  -- By induction on the copies; each one starts from what the ones before have left.
  induction residues generalizing w with
  | nil => exact ⟨w, rfl, .of_reads (.refl F w)⟩
  | cons r rs ih =>
    obtain ⟨⟨dst, src⟩, q⟩ := r
    have hcopy := (Evaluates.copyResult (F := F) dst src q).run hw
    have hsrc : lookedUp (w.held F) [src] = [src] := by
      simp [lookedUp]
    dsimp only at hcopy ⊢
    rw [hsrc] at hcopy
    rw [Expected.forEach_cons, List.map_cons, evalCopies, copiesMade, copiesLooked]
    rcases hheld : w.held F src with _ | poly <;> rw [hheld] at hcopy
    -- The first copy whose source cannot be read ends the loop.
    · obtain ⟨e, w₁, hrun, hreads⟩ := hcopy
      exact ⟨e, w₁, Expected.bind_run_error hrun, .of_reads hreads⟩
    · obtain ⟨w₁, hrun, hone⟩ := hcopy
      have hcont : (copyResidue F ((dst, src), q) >>= fun _ =>
          Expected.forEach (copyResidue F) rs) w = Expected.forEach (copyResidue F) rs w₁ :=
        Expected.bind_run_ok hrun
      have hrest := ih (hone.stocked hw)
      have hafter : w₁.held F = Writes.one (w.held F) (dst, copyOf F poly) := hone.held
      -- What the loop looks up later has not been stored by this copy.
      have hfilter : ∀ looked : List DevAddr,
          looked.filter (· ∉ [(dst, copyOf F poly)].map Prod.fst) = looked.filter (· ≠ dst) :=
        fun looked => by simp
      dsimp only at hrest
      rw [hafter] at hrest
      rw [hcont, Option.bind_eq_bind, Option.bind_some]
      dsimp only
      rcases heval : evalCopies F (Writes.one (w.held F) (dst, copyOf F poly)) (rs.map Prod.fst) with
        _ | writes <;> rw [heval] at hrest
      · obtain ⟨e, w', hrun', hall⟩ := hrest
        have htrans := hone.trans hall
        rw [hfilter] at htrans
        exact ⟨e, w', hrun', htrans⟩
      · obtain ⟨w', hrun', hall⟩ := hrest
        have htrans := hone.trans hall
        rw [hfilter] at htrans
        exact ⟨w', hrun', htrans⟩

end

end World

section

variable {F : Fhetch P M} {w : World P M}

/-! ## Copies on the device -/

/-- A copy of several residues on the device makes the writes of its evaluation and succeeds, or
fails after those before the first source without a polynomial. -/
theorem memcpyMrp_run_eval (env : CompilerReplies P) (dst src : List DevAddr) (count : UInt64)
    {base : List UInt64} (hbase : base ≠ []) (hw : w.Stocked) :
    let v := w.held F
    let residues := (takePtrs base.length dst).zip (takePtrs base.length src)
    let looked := copiesLooked F v residues
    let (reply, after) :=
      (Call.memcpyMrp (.deviceToDevice (some dst) (some src)) count (some base)).run F env w
    match evalCopies F v residues with
    | some writes => reply.code = .success ∧ w.RecordsTo F looked writes after
    | none => reply.code ≠ .success ∧ w.RecordsTo F looked (copiesMade F v residues) after := by
  intro v residues looked
  have hmap : (residues.zip base).map Prod.fst = residues :=
    List.map_fst_zip (by simp [residues, World.length_takePtrs])
  have hsession := World.session_readsTo F env w
  have hcopies := World.copies_run (F := F) (residues.zip base) (hsession.stocked hw)
  rw [hmap, funext hsession.held] at hcopies
  have hrun : (Call.memcpyMrp (.deviceToDevice (some dst) (some src)) count (some base)).run F env w =
      Shim.setInternalResult (Expected.forEach (World.copyResidue F) (residues.zip base) >>= fun _ =>
        World.registerGroup (takePtrs base.length dst) base) (w.act F (.session env)) := by
    change Shim.guarded base.isEmpty _ w = _
    rw [List.isEmpty_eq_false_iff.mpr hbase]
    rfl
  -- The session is a read of no source before the copies.
  have hafter : ∀ {looked' : List DevAddr} {writes : List (DevAddr × P)} {w' : World P M},
      (w.act F (.session env)).RecordsTo F looked' writes w' → w.RecordsTo F looked' writes w' := by
    intro looked' writes w' h
    refine ((World.RecordsTo.of_reads hsession).trans h).congr fun a => ?_
    simp
  rw [hrun]
  unfold Shim.setInternalResult Shim.replyWith
  dsimp only at hcopies ⊢
  rcases heval : evalCopies F v residues with _ | writes <;> rw [heval] at hcopies
  · obtain ⟨e, w', hfail, hw'⟩ := hcopies
    rw [Expected.bind_run_error hfail]
    exact ⟨toPublicError_ne_success e, hafter hw'⟩
  · obtain ⟨w₁, hok, hw₁⟩ := hcopies
    obtain ⟨w', hgroup, hw'⟩ := World.registerGroup_storesTo
      (World.length_takePtrs base.length dst) w₁
    rw [Expected.bind_run_ok hok, hgroup]
    refine ⟨rfl, hafter ?_⟩
    have hall := hw₁.trans (World.RecordsTo.of_stores (.refl F w₁) hw')
    rwa [List.append_nil, List.filter_nil, List.append_nil] at hall

/-- On the values that polynomials have, copies in order are copies from key to key. -/
theorem copiesMade_copyEach {value : P → V} (hcopy : ∀ p, value (copyOf F p) = value p)
    (v : DevAddr → Option P) (residues : List (DevAddr × DevAddr)) :
    Option.map value ∘ Writes.all v (copiesMade F v residues) =
      Writes.copyEach (Option.map value ∘ v) (copiesDone F v residues) := by
  induction residues generalizing v with
  | nil => rfl
  | cons r rs ih =>
    obtain ⟨dst, src⟩ := r
    rw [copiesMade, copiesDone]
    rcases hp : v src with _ | p
    · rfl
    have hone : Option.map value ∘ Writes.one v (dst, copyOf F p) =
        Function.update (Option.map value ∘ v) dst ((Option.map value ∘ v) src) := by
      rw [Writes.one, Function.comp_update, Option.map_some, hcopy]
      simp only [Function.comp_apply, hp, Option.map_some]
    change Option.map value ∘ Writes.all (Writes.one v (dst, copyOf F p)) _ = _
    rw [ih, hone]
    rfl

/-- Where every source has a polynomial, all copies are made. -/
theorem copiesMade_of_eval {v : DevAddr → Option P} {residues : List (DevAddr × DevAddr)}
    {writes : List (DevAddr × P)} (h : evalCopies F v residues = some writes) :
    copiesMade F v residues = writes ∧ copiesDone F v residues = residues := by
  induction residues generalizing v writes with
  | nil => exact ⟨Option.some.inj h, rfl⟩
  | cons r rs ih =>
    obtain ⟨dst, src⟩ := r
    obtain ⟨p, hp, h⟩ := Option.bind_eq_some_iff.mp h
    obtain ⟨rest, hrest, h⟩ := Option.bind_eq_some_iff.mp h
    obtain ⟨hmade, hdone⟩ := ih hrest
    rw [← Option.some.inj h, copiesMade, copiesDone, hp]
    dsimp only
    rw [hmade, hdone]
    exact ⟨rfl, rfl⟩

/-- The copies write their destinations in order. -/
theorem map_fst_evalCopies {v : DevAddr → Option P} {residues : List (DevAddr × DevAddr)}
    {writes : List (DevAddr × P)} (h : evalCopies F v residues = some writes) :
    writes.map Prod.fst = residues.map Prod.fst := by
  induction residues generalizing v writes with
  | nil =>
    rw [← Option.some.inj h]
    rfl
  | cons r rs ih =>
    obtain ⟨p, -, h⟩ := Option.bind_eq_some_iff.mp h
    obtain ⟨rest, hrest, h⟩ := Option.bind_eq_some_iff.mp h
    rw [← Option.some.inj h, List.map_cons, List.map_cons, ih hrest]

/-- A copy of several residues that succeeds copies what the sources held before the call exactly
when no residue is read from an address that an earlier residue has given another value. -/
theorem copies_simultaneous {value : P → V} (hcopy : ∀ p, value (copyOf F p) = value p)
    (hw : w.Reachable F) (env : CompilerReplies P) (dst src : List DevAddr) (count : UInt64)
    (base : List UInt64) :
    let c : Call := .memcpyMrp (.deviceToDevice (some dst) (some src)) count (some base)
    let residues := (takePtrs base.length dst).zip (takePtrs base.length src)
    (c.run F env w).1.code = .success → (takePtrs base.length dst).Nodup →
      ((∀ r ∈ residues, ((c.run F env w).2.binding r.1).map value = (w.held F r.2).map value) ↔
        residues.Pairwise fun earlier later => earlier.1 = later.2 →
          (w.held F earlier.2).map value = (w.held F later.2).map value) := by
  intro c residues hsuccess hdistinct
  have hbase : base ≠ [] := by
    rintro rfl
    exact nomatch hsuccess
  have hrun := memcpyMrp_run_eval (F := F) env dst src count hbase hw.stocked
  dsimp only at hrun
  rcases heval : evalCopies F (w.held F) residues with _ | writes <;> rw [heval] at hrun
  · exact absurd hsuccess hrun.1
  have hfst : residues.map Prod.fst = takePtrs base.length dst :=
    List.map_fst_zip (by simp [World.length_takePtrs])
  have hvalues := copiesMade_copyEach hcopy (w.held F) residues
  rw [(copiesMade_of_eval heval).1, (copiesMade_of_eval heval).2] at hvalues
  rw [← hfst] at hdistinct
  refine Iff.trans ?_ (Writes.copyEach_eq_iff (f := Option.map value ∘ w.held F) hdistinct)
  rw [← hvalues]
  refine forall₂_congr fun r hr => ?_
  -- A destination is bound to what was written to it last.
  have hbound : (c.run F env w).2.binding r.1 = Writes.all (w.held F) writes r.1 := by
    rcases hlast : Writes.last writes r.1 with _ | p
    · have hnot := Writes.last_eq_none.mp hlast
      rw [map_fst_evalCopies heval] at hnot
      exact absurd (List.mem_map_of_mem hr) hnot
    · rw [hrun.2.written hlast, Writes.all_eq, hlast, Option.some_or]
  rw [hbound]
  rfl

/-- Two uploads and an address behind them. -/
def threeAddresses : World UInt64 (List (UInt64 × UInt64)) :=
  .runAll scalarRing .init (scalarProgram [.setRingDimension 1, .malloc true 8, .malloc true 8,
    .malloc true 8, uploadFive,
    .memcpy (.hostToDevice ⟨kHbmBase + 8⟩ (some [6, 0, 0, 0, 0, 0, 0, 0])) 8])

/-- Two residues, each copied to the next address. -/
def shiftCopy : Call :=
  .memcpyMrp (.deviceToDevice (some [⟨kHbmBase + 8⟩, ⟨kHbmBase + 16⟩])
    (some [⟨kHbmBase⟩, ⟨kHbmBase + 8⟩])) 8 (some [17, 19])

/-- Each residue is copied as it was if and only if no later source is an earlier destination with
another value. -/
theorem copies_simultaneous_example :
    let w := threeAddresses
    let after := (shiftCopy.run scalarRing scalarReplies w).2
    let residues : List (DevAddr × DevAddr) :=
      [(⟨kHbmBase + 8⟩, ⟨kHbmBase⟩), (⟨kHbmBase + 16⟩, ⟨kHbmBase + 8⟩)]
    (∀ r ∈ residues, (after.binding r.1).map id = (w.held scalarRing r.2).map id) ↔
      residues.Pairwise fun earlier later => earlier.1 = later.2 →
        (w.held scalarRing earlier.2).map id = (w.held scalarRing later.2).map id :=
  copies_simultaneous (fun _ => rfl) ⟨_, rfl⟩ scalarReplies [⟨kHbmBase + 8⟩, ⟨kHbmBase + 16⟩]
    [⟨kHbmBase⟩, ⟨kHbmBase + 8⟩] 8 [17, 19] (by decide +kernel) (by decide +kernel)

/-- The second residue is a copy of the first value, not of the second. -/
theorem copies_simultaneous_counterexample :
    let w := threeAddresses
    let (reply, after) := shiftCopy.run scalarRing scalarReplies w
    w.Reachable scalarRing ∧ ([⟨kHbmBase + 8⟩, ⟨kHbmBase + 16⟩] : List DevAddr).Nodup ∧
      reply.code = .success ∧
      ¬ (after.binding ⟨kHbmBase + 16⟩).map id = (w.held scalarRing ⟨kHbmBase + 8⟩).map id :=
  ⟨⟨_, rfl⟩, by decide +kernel, by decide +kernel, by decide +kernel⟩

end

/-! ## Copies from the host -/

/-- A guarded call that succeeds is the call. -/
theorem Shim.guarded_success {rejected : Bool} {shim : Shim P M} {w : World P M}
    (h : (guarded rejected shim w).1.code = .success) : guarded rejected shim w = shim w := by
  rcases rejected
  · rfl
  · exact HazeError.noConfusion h

namespace World

/-- The copies from the host before the first that is refused: the addresses and the bytes. -/
def hostCopies (w : World P M) (count : UInt64) :
    List (DevAddr × Option (List UInt8)) → List (DevAddr × List UInt8)
  | [] => []
  | (_, none) :: _ => []
  | (a, some bytes) :: residues =>
    match w.allocator.checkRange a count with
    | .ok _ => (a, bytes.takeD count.toNat 0) :: hostCopies w count residues
    | .error _ => []

section

variable {F : Fhetch P M} {w : World P M} {count : UInt64}

/-- Where the ranges are checked alike the copies are the same. -/
theorem hostCopies_congr {w' : World P M}
    (h : ∀ a, w'.allocator.checkRange a count = w.allocator.checkRange a count)
    (residues : List (DevAddr × Option (List UInt8))) :
    w'.hostCopies count residues = w.hostCopies count residues := by
  induction residues with
  | nil => rfl
  | cons r rs ih =>
    obtain ⟨a, _ | bytes⟩ := r
    · rfl
    · rw [hostCopies, hostCopies, h, ih]

/-- What is copied is of live addresses, and no more than an allocation. -/
theorem mem_hostCopies {residues : List (DevAddr × Option (List UInt8))}
    {copy : DevAddr × List UInt8} (h : copy ∈ w.hostCopies count residues) :
    copy.1 ∈ w.allocator.allocSet ∧ copy.2.length = count.toNat ∧
      count.toNat ≤ w.allocator.polyBytes.toNat := by
  induction residues with
  | nil => exact absurd h List.not_mem_nil
  | cons r rs ih =>
    obtain ⟨a, _ | bytes⟩ := r
    · exact absurd h List.not_mem_nil
    rw [hostCopies] at h
    rcases hc : w.allocator.checkRange a count with e | _ <;> rw [hc] at h
    · exact absurd h List.not_mem_nil
    · rcases List.mem_cons.mp h with rfl | h
      · obtain ⟨hlive, hcount⟩ := DeviceAllocator.checkRange_ok hc
        exact ⟨hlive, List.takeD_length .., UInt64.le_iff_toNat_le.mp hcount⟩
      · exact ih h

/-- The words of an address after the copies: those of the last copy to it over the first bytes of
what it had. -/
def copiedWords (w : World P M) (copies : List (DevAddr × List UInt8)) (a : DevAddr) :
    Option (List UInt64) :=
  ((Writes.last copies a).map (Limbs.overwrite · (w.allocator.sizedShadow a))).or (w.shadow a)

/-- Later copies of one length to an address leave nothing of the first. -/
theorem copiedWords_write {bytes : List UInt8} {copies : List (DevAddr × List UInt8)} {a : DevAddr}
    (hlen : bytes.length = count.toNat) (hcount : count.toNat ≤ w.allocator.polyBytes.toNat)
    (hsize : w.allocator.polyBytes.toNat = 8 * w.allocator.wantElems)
    (hcopies : ∀ copy ∈ copies, copy.2.length = count.toNat) (b : DevAddr) :
    ({ w with allocator := DeviceAllocator.writeShadow a bytes w.allocator } :
        World P M).copiedWords copies b = w.copiedWords ((a, bytes) :: copies) b := by
  -- The write changes the words at `a` alone, and they have the right length after it.
  have hwritten : (DeviceAllocator.writeShadow a bytes w.allocator).shadow b =
      if b = a then some (Limbs.overwrite bytes (w.allocator.sizedShadow a)) else w.shadow b :=
    UMap.lookup_insert_ite ..
  have hsized : (DeviceAllocator.writeShadow a bytes w.allocator).sizedShadow b =
      if b = a then Limbs.overwrite bytes (w.allocator.sizedShadow a)
      else w.allocator.sizedShadow b := by
    unfold DeviceAllocator.sizedShadow
    rw [hwritten]
    split_ifs with hb
    · rw [Option.getD_some]
      exact if_neg (not_not.mpr (DeviceAllocator.length_written (hlen ▸ hcount)))
    · rfl
  unfold copiedWords
  rw [Writes.last_cons]
  dsimp only
  -- No later copy goes to `b`, so what it holds is what was written, or what it held.
  rcases hlast : Writes.last copies b with _ | bytes'
  · change Option.or none ((DeviceAllocator.writeShadow a bytes w.allocator).shadow b) = _
    rw [hwritten]
    split_ifs with hb
    · rw [hb]
      rfl
    · rfl
  · have hlen' := hcopies _ (Writes.mem_of_last hlast)
    rw [hsized]
    split_ifs with hb
    -- A later copy to the same address covers the bytes of this one.
    · have hsame : Limbs.overwrite bytes' (Limbs.overwrite bytes (w.allocator.sizedShadow a)) =
          Limbs.overwrite bytes' (w.allocator.sizedShadow b) := by
        rw [hb]
        refine Limbs.overwrite_overwrite ?_ (hlen'.trans hlen.symm)
        rw [DeviceAllocator.length_sizedShadow, hlen, ← hsize]
        exact hcount
      rw [Option.map_some, hsame]
      rfl
    · rfl

/-- A set that is in range replaces words. -/
theorem memset_writes {a : DevAddr} (value : ℤ) (hc : w.allocator.checkRange a count = .ok ()) :
    onAllocator (DeviceAllocator.memset a value count) w = (.ok (), { w with
      allocator := DeviceAllocator.writeShadow a
        (List.replicate count.toNat (UInt8.ofInt value)) w.allocator }) := by
  unfold onAllocator DeviceAllocator.memset
  rw [Expected.zoom_run, Expected.query_bind_ok hc]
  rfl

/-- A copy from the host that is in range replaces words. -/
theorem copyH2d_writes {a : DevAddr} (bytes : List UInt8)
    (hc : w.allocator.checkRange a count = .ok ()) :
    onAllocator (DeviceAllocator.copyH2d a (some bytes) count) w = (.ok (), { w with
      allocator := DeviceAllocator.writeShadow a (bytes.takeD count.toNat 0) w.allocator }) := by
  unfold onAllocator DeviceAllocator.copyH2d
  rw [Expected.zoom_run]
  dsimp only
  rw [Expected.query_bind_ok hc]
  rfl

/-- Copies from the host replace words, those before the first that is refused. -/
theorem copyH2dAll_copies (hsize : w.allocator.polyBytes.toNat = 8 * w.allocator.wantElems)
    (count : UInt64) (residues : List (DevAddr × Option (List UInt8))) :
    ∃ s, (Expected.forEach (fun r => onAllocator (DeviceAllocator.copyH2d r.1 r.2 count)) residues
        w : _ × World P M).2 = { w with allocator := s } ∧
      s.allocSet = w.allocator.allocSet ∧ s.polyBytes = w.allocator.polyBytes ∧
      ∀ a, s.shadow a = w.copiedWords (w.hostCopies count residues) a := by
  induction residues generalizing w with
  | nil => exact ⟨w.allocator, rfl, rfl, rfl, fun _ => rfl⟩
  | cons r rs ih =>
    obtain ⟨a, src⟩ := r
    -- A copy that is refused ends the loop.
    have hrefused : ∀ {e : HazeInternalError}, (onAllocator (DeviceAllocator.copyH2d a src count) w :
        _ × World P M) = (.error e, w) → w.hostCopies count ((a, src) :: rs) = [] →
        ∃ s, (Expected.forEach (fun r => onAllocator (DeviceAllocator.copyH2d r.1 r.2 count))
            ((a, src) :: rs) w : _ × World P M).2 = { w with allocator := s } ∧
          s.allocSet = w.allocator.allocSet ∧ s.polyBytes = w.allocator.polyBytes ∧
          ∀ b, s.shadow b = w.copiedWords (w.hostCopies count ((a, src) :: rs)) b := by
      intro e hrun hnone
      rw [Expected.forEach_cons, Expected.bind_run_error hrun, hnone]
      exact ⟨w.allocator, rfl, rfl, rfl, fun _ => rfl⟩
    rcases src with _ | bytes
    · exact hrefused rfl rfl
    rcases hc : w.allocator.checkRange a count with e | ⟨⟩
    · refine hrefused (e := e) ?_ ?_
      · unfold onAllocator DeviceAllocator.copyH2d
        rw [Expected.zoom_run]
        dsimp only
        rw [Expected.query_bind_error hc]
      · rw [hostCopies, hc]
    have hrun := copyH2d_writes bytes hc
    have hcopied : w.hostCopies count ((a, some bytes) :: rs) =
        (a, bytes.takeD count.toNat 0) :: w.hostCopies count rs := by
      rw [hostCopies, hc]
    have hcount := UInt64.le_iff_toNat_le.mp (DeviceAllocator.checkRange_ok hc).2
    rw [Expected.forEach_cons, Expected.bind_run_ok hrun, hcopied]
    obtain ⟨s, hs, hlive, hbytes, hwords⟩ := ih (w := { w with
      allocator := DeviceAllocator.writeShadow a (bytes.takeD count.toNat 0) w.allocator }) hsize
    refine ⟨s, hs, hlive, hbytes, fun b => (hwords b).trans ?_⟩
    have hsame : ({ w with allocator :=
        DeviceAllocator.writeShadow a (bytes.takeD count.toNat 0) w.allocator } :
          World P M).hostCopies count rs = w.hostCopies count rs := by
      refine hostCopies_congr (fun _ => ?_) rs
      rfl
    rw [hsame]
    exact copiedWords_write (List.takeD_length ..) hcount hsize
      (fun copy hmem => (mem_hostCopies hmem).2.1) b

/-- Tagging addresses that all have the words of a polynomial binds them. -/
theorem tagAll_binds {addrs : List DevAddr} (h : ∀ a ∈ addrs,
    ∃ values, DeviceAllocator.components a w.config.ringDim w.allocator = .ok values) :
    ∃ w', Expected.forEach (tagH2dInputLocked F) addrs w = (.ok (), w') := by
  induction addrs generalizing w with
  | nil => exact ⟨w, rfl⟩
  | cons a addrs ih =>
    obtain ⟨values, hc⟩ := h a (List.mem_cons_self ..)
    rw [Expected.forEach_cons, Expected.bind_run_ok (tagH2dInput_binds hc)]
    exact ih fun b hb => h b (List.mem_cons_of_mem _ hb)

/-- Tagging addresses whose words are all of one length binds all of them or fails at the first. -/
theorem tagAll_uniform {addrs : List DevAddr} (h :
    (∀ a ∈ addrs, ∃ values, DeviceAllocator.components a w.config.ringDim w.allocator = .ok values) ∨
      ∀ a ∈ addrs, ∃ e, DeviceAllocator.components a w.config.ringDim w.allocator = .error e) :
    (∃ w', Expected.forEach (tagH2dInputLocked F) addrs w = (.ok (), w')) ∨
      ∃ e, Expected.forEach (tagH2dInputLocked F) addrs w = (.error e, w) := by
  rcases h with hok | herror
  · exact .inl (tagAll_binds hok)
  · rcases addrs with _ | ⟨a, addrs⟩
    · exact .inl ⟨w, rfl⟩
    · obtain ⟨e, hc⟩ := herror a (List.mem_cons_self ..)
      obtain ⟨e', he⟩ := tagH2dInput_fails (F := F) hc
      rw [Expected.forEach_cons, Expected.bind_run_error he]
      exact .inr ⟨e', rfl⟩

/-- The state differs by copies from the host at most. -/
structure CopiedTo (w : World P M) (copies : List (DevAddr × List UInt8)) (w' : World P M) : Prop where
  config : w'.config = w.config
  allocSet : w'.allocator.allocSet = w.allocator.allocSet
  polyBytes : w'.allocator.polyBytes = w.allocator.polyBytes
  binding : w'.binding = w.binding
  shadow : ∀ a, w'.shadow a = w.copiedWords copies a

/-- Words of the dimension's size are there after the copies too. -/
theorem CopiedTo.stocked {w' : World P M} {residues : List (DevAddr × Option (List UInt8))}
    (hw : w.Reachable F) (h : w.CopiedTo (w.hostCopies count residues) w') : w'.Stocked := by
  intro a ha
  rw [h.shadow, copiedWords] at ha
  have hlive : a ∈ w.allocator.allocSet := by
    rcases hlast : Writes.last (w.hostCopies count residues) a with _ | bytes
    · rw [hlast] at ha
      exact (hw.stocked a ha).1
    · exact (mem_hostCopies (Writes.mem_of_last hlast)).1
  rw [h.allocSet, h.config, h.polyBytes, hw.inv.size]
  exact ⟨hlive, hw.ringDim hlive, UInt64.lt_irrefl _⟩

/-- A copy of several residues from the host that fails has replaced the words of the residues
before the first that is refused, and has bound nothing. -/
theorem copyH2dMrp_fails {env : CompilerReplies P} {dst : List DevAddr}
    {src : List (Option (List UInt8))} {len : ℕ} {e : HazeInternalError} {w' : World P M}
    (hw : w.Reachable F) (hfails : copyH2dMrp F env dst src count len w = (.error e, w')) :
    w.CopiedTo (w.hostCopies count ((takePtrs len dst).zip (src.takeD len none))) w' := by
  obtain ⟨-, hsize⟩ := hw.inv.wantElems
  obtain ⟨s, hs, hlive, hbytes, hwords⟩ := copyH2dAll_copies hsize count
    ((takePtrs len dst).zip (src.takeD len none))
  have hcopied : w.CopiedTo (w.hostCopies count ((takePtrs len dst).zip (src.takeD len none)))
      { w with allocator := s } := ⟨rfl, hlive, hbytes, rfl, hwords⟩
  unfold copyH2dMrp at hfails
  rcases hrun : (Expected.forEach (fun r => onAllocator (DeviceAllocator.copyH2d r.1 r.2 count))
    ((takePtrs len dst).zip (src.takeD len none)) w : _ × World P M) with ⟨e' | ⟨⟩, w₁⟩
  · rw [Expected.bind_run_error hrun] at hfails
    rw [hrun] at hs
    cases hfails
    change w' = _ at hs
    rw [hs]
    exact hcopied
  · -- All copies were made, so that the words of all residues have one length.
    have hfilled := copyH2dAll_fills hrun
    rw [Expected.bind_run_ok hrun] at hfails
    rw [hrun] at hs
    change w₁ = _ at hs
    subst hs
    have hsession := session_readsTo F env { w with allocator := s }
    have hstocked := hsession.stocked (hcopied.stocked hw)
    change Expected.forEach (tagH2dInputLocked F) (takePtrs len dst)
      (World.act F { w with allocator := s } (.session env)) = (.error e, w') at hfails
    -- The session reads nothing, and so keeps the bindings and the words.
    have hkept : w.CopiedTo (w.hostCopies count ((takePtrs len dst).zip (src.takeD len none)))
        (World.act F { w with allocator := s } (.session env)) := by
      refine ⟨hsession.config, hsession.allocSet.trans hlive, hsession.polyBytes.trans hbytes,
        funext fun a => ?_, fun a => ?_⟩
      · rw [hsession.binding, if_neg List.not_mem_nil]
        rfl
      · rw [hsession.shadow, if_neg fun h => List.not_mem_nil h.1]
        exact hwords a
    have hshadow := hsession.shadow
    generalize World.act F { w with allocator := s } (.session env) = v at hfails hstocked hkept hshadow
    have hwordsOf : ∀ a ∈ takePtrs len dst, ∃ values, v.shadow a = some values ∧
        values.length = s.wantElems := by
      intro a ha
      have hzip : ((takePtrs len dst).zip (src.takeD len none)).map Prod.fst = takePtrs len dst :=
        List.map_fst_zip (by rw [length_takePtrs, List.takeD_length])
      rw [← hzip] at ha
      obtain ⟨r, hr, rfl⟩ := List.mem_map.mp ha
      rw [hshadow, if_neg fun h => List.not_mem_nil h.1]
      exact hfilled r hr
    have huniform : (∀ a ∈ takePtrs len dst, ∃ values,
          DeviceAllocator.components a v.config.ringDim v.allocator = .ok values) ∨
        ∀ a ∈ takePtrs len dst, ∃ e,
          DeviceAllocator.components a v.config.ringDim v.allocator = .error e := by
      by_cases hn : s.wantElems = v.config.ringDim.toNat
      · left
        intro a ha
        obtain ⟨values, hvalues, hlen⟩ := hwordsOf a ha
        refine ⟨values, ?_⟩
        rw [components_words hstocked hvalues, if_neg (not_not.mpr (hlen.trans hn))]
      · right
        intro a ha
        obtain ⟨values, hvalues, hlen⟩ := hwordsOf a ha
        refine ⟨.shadowSizeMismatch, ?_⟩
        rw [components_words hstocked hvalues, if_pos fun h => hn (hlen.symm.trans h)]
    rcases tagAll_uniform (F := F) huniform with ⟨w₂, hok⟩ | ⟨e', he'⟩
    · rw [hok] at hfails
      cases hfails
    · rw [he'] at hfails
      cases hfails
      exact hkept

end

/-! ## Copies that fail -/

section

variable {F : Fhetch P M} {value : P → V} {w w' : World P M}

/-- The first entries of a list that is cut or padded to no fewer. -/
theorem take_takeD {α : Type} {m n : ℕ} (h : m ≤ n) (xs : List α) (x : α) :
    (xs.takeD n x).take m = xs.takeD m x := by
  induction m generalizing n xs with
  | zero => rw [List.take_zero, List.takeD_zero]
  | succ m ih =>
    obtain ⟨n, rfl⟩ := Nat.exists_eq_succ_of_ne_zero (Nat.ne_of_gt (Nat.lt_of_lt_of_le m.succ_pos h))
    rw [List.takeD_succ, List.takeD_succ, List.take_succ_cons, ih (Nat.le_of_succ_le_succ h)]

/-- What can be read of the addresses is as it was: what is copied to the host, and the values that
a compute call reads. -/
structure SameReads (F : Fhetch P M) (value : P → V) (w w' : World P M) : Prop where
  host : ∀ a dst count, DeviceAllocator.copyToHost dst a count w'.allocator =
    DeviceAllocator.copyToHost dst a count w.allocator
  held : ∀ a, (w'.held F a).map value = (w.held F a).map value

/-- Bytes that are copied to an address are there already: the host sees no other words, and a
compute call reads the words only where they are those of a polynomial before and after. -/
def CopyKept (w : World P M) (a : DevAddr) (bytes : List UInt8) : Prop :=
  ∃ words, w.shadow a = some words ∧
    (Limbs.bytesOf words).takeD w.allocator.polyBytes.toNat 0 =
      (Limbs.bytesOf (Limbs.overwrite bytes (w.allocator.sizedShadow a))).takeD
        w.allocator.polyBytes.toNat 0 ∧
    (w.binding a ≠ none ∨ (words.length = w.config.ringDim.toNat ↔
      w.allocator.wantElems = w.config.ringDim.toNat))

/-- Copies from the host that bind nothing are not observed exactly when each address has the bytes
that were copied to it last. -/
theorem CopiedTo.sameReads_iff {count : UInt64} {residues : List (DevAddr × Option (List UInt8))}
    (hw : w.Reachable F) (h : w.CopiedTo (w.hostCopies count residues) w') :
    w.SameReads F value w' ↔
      ∀ a bytes, Writes.last (w.hostCopies count residues) a = some bytes → w.CopyKept a bytes := by
  obtain ⟨-, hsize⟩ := hw.inv.wantElems
  -- A copied address is live, and has words of the size of an allocation afterwards.
  have hcopied : ∀ a bytes, Writes.last (w.hostCopies count residues) a = some bytes →
      a ∈ w.allocator.allocSet ∧
        w'.shadow a = some (Limbs.overwrite bytes (w.allocator.sizedShadow a)) ∧
        (Limbs.overwrite bytes (w.allocator.sizedShadow a)).length = w.allocator.wantElems := by
    intro a bytes hlast
    obtain ⟨hlive, hlen, hcount⟩ := mem_hostCopies (Writes.mem_of_last hlast)
    refine ⟨hlive, ?_, DeviceAllocator.length_written (hlen.trans_le hcount)⟩
    rw [h.shadow, copiedWords, hlast]
    rfl
  have hstocked := h.stocked hw
  constructor
  · intro hsame a bytes hlast
    obtain ⟨hlive, hs', hlen'⟩ := hcopied a bytes hlast
    have hlive' : a ∈ w'.allocator.allocSet := h.allocSet ▸ hlive
    -- The address could be read before, since it can be read now.
    have hne : w.shadow a ≠ none := by
      intro hnone
      have hhost := (hsame.host a true 0).trans ((copyToHost_zero hlive).mpr hnone)
      rw [(copyToHost_zero hlive').mp hhost] at hs'
      cases hs'
    obtain ⟨words, hs⟩ := Option.ne_none_iff_exists'.mp hne
    refine ⟨words, hs, ?_, ?_⟩
    · have hhost := hsame.host a true w.allocator.polyBytes
      rw [copyToHost_words hlive' hs' (h.polyBytes ▸ UInt64.le_refl _),
        copyToHost_words hlive hs (UInt64.le_refl _)] at hhost
      exact (Except.ok.inj hhost).symm
    · by_cases hb : w.binding a = none
      · right
        have hheld := hsame.held a
        rw [held_unbound hstocked ((congrFun h.binding a).trans hb), held_unbound hw.stocked hb, hs',
          hs, h.config, Option.bind_some, Option.bind_some, hlen'] at hheld
        split_ifs at hheld with h₁ h₂ h₂
        · exact ⟨fun _ => h₁, fun _ => h₂⟩
        · cases hheld
        · cases hheld
        · exact ⟨fun h => absurd h h₂, fun h => absurd h h₁⟩
      · exact .inl hb
  · intro hkept
    have hone : ∀ a, (∀ dst count', DeviceAllocator.copyToHost dst a count' w'.allocator =
        DeviceAllocator.copyToHost dst a count' w.allocator) ∧ w'.held F a = w.held F a := by
      intro a
      rcases hlast : Writes.last (w.hostCopies count residues) a with _ | bytes
      · have hs : w'.shadow a = w.shadow a := by
          rw [h.shadow, copiedWords, hlast]
          rfl
        exact ⟨fun dst count' => copyToHost_congr hs h.allocSet h.polyBytes dst count',
          held_congr (congrFun h.binding a) hs (congrArg _ h.config) h.allocSet h.polyBytes⟩
      · obtain ⟨hlive, hs', hlen'⟩ := hcopied a bytes hlast
        obtain ⟨words, hs, hvisible, hread⟩ := hkept a bytes hlast
        have hlive' : a ∈ w'.allocator.allocSet := h.allocSet ▸ hlive
        refine ⟨fun dst count' => ?_, ?_⟩
        · rcases dst
          · rfl
          by_cases hcount : count' ≤ w.allocator.polyBytes
          · rw [copyToHost_words hlive' hs' (h.polyBytes ▸ hcount), copyToHost_words hlive hs hcount,
              ← take_takeD (UInt64.le_iff_toNat_le.mp hcount), ← hvisible,
              take_takeD (UInt64.le_iff_toNat_le.mp hcount)]
          · have hrange : ∀ v : World P M, v.allocator.polyBytes = w.allocator.polyBytes →
                a ∈ v.allocator.allocSet →
                DeviceAllocator.copyToHost true a count' v.allocator = .error .allocTooSmall := by
              intro v hbytes hmem
              unfold DeviceAllocator.copyToHost DeviceAllocator.checkRange
              rw [if_neg (not_not.mpr hmem), hbytes, if_pos (UInt64.not_le.mp hcount)]
              rfl
            rw [hrange w' h.polyBytes hlive', hrange w rfl hlive]
        · rcases hb : w.binding a with _ | poly
          · have hlengths := hread.resolve_left (not_not.mpr hb)
            rw [held_unbound hstocked ((congrFun h.binding a).trans hb), held_unbound hw.stocked hb,
              hs', hs, h.config, Option.bind_some, Option.bind_some, hlen']
            by_cases hn : w.allocator.wantElems = w.config.ringDim.toNat
            · -- All of the words are seen by the host.
              have hwords : Limbs.overwrite bytes (w.allocator.sizedShadow a) = words := by
                have hlen := (hlengths.mpr hn).trans hn.symm
                rw [hsize, List.takeD_eq_take _ (by rw [Limbs.length_bytesOf, hlen]),
                  List.takeD_eq_take _ (by rw [Limbs.length_bytesOf, hlen']),
                  List.take_of_length_le (by rw [Limbs.length_bytesOf, hlen]),
                  List.take_of_length_le (by rw [Limbs.length_bytesOf, hlen'])] at hvisible
                exact (Limbs.bytesOf_injective hvisible).symm
              rw [if_pos hn, if_pos (hlengths.mpr hn), hwords]
            · rw [if_neg hn, if_neg fun hlen => hn (hlengths.mp hlen)]
          · rw [held_bound hb, held_bound ((congrFun h.binding a).trans hb)]
    exact ⟨fun a dst count' => (hone a).1 dst count', fun a => congrArg _ (hone a).2⟩

/-- Writes after lookups are not observed exactly when no words have left and the values are put
back. -/
theorem RecordsTo.sameReads_iff {looked : List DevAddr} {writes : List (DevAddr × P)}
    (hw : w.Reachable F) (h : RecordsTo F w looked writes w') : w.SameReads F value w' ↔
      (∀ a ∈ looked, w.binding a ≠ none ∨ w.shadow a = none) ∧
      ∀ a, (Writes.all (w.held F) writes a).map value = (w.held F a).map value := by
  rw [← h.host_iff hw, ← h.held]
  exact ⟨fun hsame => ⟨hsame.host, hsame.held⟩, fun hsame => ⟨hsame.1, hsame.2⟩⟩

end

end World

section

variable {F : Fhetch P M} {w : World P M} {env : CompilerReplies P} {value : P → V}

/-- The residues of a copy before the one that fails are copied without effect. From the host: each
address has the bytes that are copied to it. On the device: every source that is looked up is bound
or has no words, and the copies that are made put every value back where it was. -/
def Call.LeavesValues (F : Fhetch P M) (value : P → V) (w : World P M) : Call → Prop
  | .memcpyMrp (.hostToDevice (some dst) (some src)) count (some base) =>
    let residues := (takePtrs base.length dst).zip (src.takeD base.length none)
    ∀ a bytes, Writes.last (w.hostCopies count residues) a = some bytes → w.CopyKept a bytes
  | .memcpyMrp (.deviceToDevice (some dst) (some src)) _ (some base) =>
    let residues := (takePtrs base.length dst).zip (takePtrs base.length src)
    let origin := Writes.copyEach id (copiesDone F (w.held F) residues)
    (∀ a ∈ copiesLooked F (w.held F) residues, w.binding a ≠ none ∨ w.shadow a = none) ∧
      ∀ a, (w.held F (origin a)).map value = (w.held F a).map value
  | _ => True

/-- A copy of several residues that fails is not observed exactly when the residues before the one
that fails are copied without effect. -/
theorem failed_memcpyMrp_restores (hcopy : ∀ p, value (copyOf F p) = value p) (hw : w.Reachable F)
    {transfer : TransferMrp} {count : UInt64} {base : Option (List UInt64)} :
    let c : Call := .memcpyMrp transfer count base
    (c.run F env w).1.code ≠ .success →
      (w.SameReads F value (c.run F env w).2 ↔ c.LeavesValues F value w) := by
  intro c hfails
  -- A call that is refused by its checks changes nothing.
  have hunchanged : (c.run F env w).2 = w → w.SameReads F value (c.run F env w).2 := by
    intro he
    rw [he]
    exact ⟨fun _ _ _ => rfl, fun _ => rfl⟩
  rcases transfer with ⟨dst, src⟩ | ⟨dst, src⟩ | ⟨dst, src⟩ | _
  -- An upload that fails midway has written the residues before the one that failed.
  · rcases dst with _ | dst
    · exact ⟨fun _ => trivial, fun _ => hunchanged rfl⟩
    rcases src with _ | src
    · exact ⟨fun _ => trivial, fun _ => hunchanged rfl⟩
    rcases base with _ | base
    · exact ⟨fun _ => trivial, fun _ => hunchanged rfl⟩
    rcases base with _ | ⟨q, base⟩
    · exact ⟨fun _ _ _ h => (nomatch h), fun _ => hunchanged rfl⟩
    have hrun : c.run F env w = Shim.setInternalResult
        (World.copyH2dMrp F env dst src count (q :: base).length) w := rfl
    unfold Shim.setInternalResult Shim.replyWith at hrun
    rcases hcall : World.copyH2dMrp F env dst src count (q :: base).length w with ⟨e | ⟨⟩, w'⟩
    · rw [hcall] at hrun
      rw [hrun]
      exact (World.copyH2dMrp_fails hw hcall).sameReads_iff hw
    · rw [hcall] at hrun
      rw [hrun] at hfails
      exact absurd rfl hfails
  -- A copy to the host changes nothing at all.
  · refine ⟨fun _ => trivial, fun _ => hunchanged ?_⟩
    exact (Call.performs env c w).preserves (I := (· = w)) (fun _ _ hx => hx.1.elim) rfl
  · rcases dst with _ | dst
    · exact ⟨fun _ => trivial, fun _ => hunchanged rfl⟩
    rcases src with _ | src
    · exact ⟨fun _ => trivial, fun _ => hunchanged rfl⟩
    rcases base with _ | base
    · exact ⟨fun _ => trivial, fun _ => hunchanged rfl⟩
    rcases base with _ | ⟨q, base⟩
    · exact ⟨fun _ => ⟨fun _ h => absurd h List.not_mem_nil, fun _ => rfl⟩, fun _ => hunchanged rfl⟩
    -- A copy on the device stops at the first source that it cannot read.
    have hrun := memcpyMrp_run_eval (F := F) env dst src count (List.cons_ne_nil q base) hw.stocked
    dsimp only at hrun
    rcases heval : evalCopies F (w.held F) ((takePtrs (q :: base).length dst).zip
      (takePtrs (q :: base).length src)) with _ | writes <;> rw [heval] at hrun
    -- The copies made so far leave every value exactly where none of them changes one.
    · refine (hrun.2.sameReads_iff hw).trans (and_congr Iff.rfl (forall_congr' fun a => ?_))
      have hvalues := congrFun (copiesMade_copyEach hcopy (w.held F)
        ((takePtrs (q :: base).length dst).zip (takePtrs (q :: base).length src))) a
      have horigin := congrFun (Writes.copyEach_comp id (Option.map value ∘ w.held F)
        (copiesDone F (w.held F) ((takePtrs (q :: base).length dst).zip
          (takePtrs (q :: base).length src)))) a
      rw [Function.comp_id] at horigin
      exact Eq.congr_left (hvalues.trans horigin)
    · exact absurd hrun.1 hfails
  · exact ⟨fun _ => trivial, fun _ => hunchanged rfl⟩

/-- New words for an upload, and for a second address that is null. -/
def uploadPair : Call :=
  .memcpyMrp (.hostToDevice (some [⟨kHbmBase⟩, .null])
    (some [some [7, 0, 0, 0, 0, 0, 0, 0], some [8, 0, 0, 0, 0, 0, 0, 0]])) 8 (some [17, 19])

/-- The rejected upload restores what is read if and only if it leaves the values. -/
theorem failed_memcpyMrp_restores_example :
    let w := threeAddresses
    w.SameReads scalarRing id (uploadPair.run scalarRing scalarReplies w).2 ↔
      uploadPair.LeavesValues scalarRing id w :=
  failed_memcpyMrp_restores (fun _ => rfl) ⟨_, rfl⟩ (by decide +kernel)

/-- The first address has the new bytes for the host and keeps the old value for a compute call. -/
theorem failed_memcpyMrp_restores_counterexample :
    let w := threeAddresses
    let (reply, after) := uploadPair.run scalarRing scalarReplies w
    w.Reachable scalarRing ∧ reply.code ≠ .success ∧ ¬ w.SameReads scalarRing id after :=
  ⟨⟨_, rfl⟩, by decide +kernel, fun h => absurd (h.host ⟨kHbmBase⟩ true 8) (by decide +kernel)⟩

end

end Haze
