import Thuban.Fat32.Nodes
import Thuban.Fat32.Stability

/-!
# Consistency is an invariant

Histories of the operations that change a volume.  Every operation gets its node by fresh calls of
`fat32_lookup` from the root directory on; it may fail, also half-way because the volume is full.
-/

namespace Thuban.Fat32

open Lib

/-- Fresh lookups of the components of a path, starting at `node`. -/
def lookupPath (fs : Fs) (fuel : ℕ) :
    VfsNode → List CString → World → Option (Option VfsNode × World)
  | node, [], w => some (some node, w)
  | dir, name :: path, w =>
      (lookup fs dir name fuel w).bind fun
        | (none, w) => some (none, w)
        | (some node, w) => lookupPath fs fuel node path w

/-- An operation with the path of the node it is called on: the directory, or the file to write. -/
inductive Op
  | create (path : List CString) (name : CString) (mode : ℕ)
  | mkdir (path : List CString) (name : CString) (mode : ℕ)
  | unlink (path : List CString) (name : CString)
  | rmdir (path : List CString) (name : CString)
  | write (path : List CString) (src : Bytes) (count offset : ℕ)

namespace Op

def path : Op → List CString
  | create path _ _ => path
  | mkdir path _ _ => path
  | unlink path _ => path
  | rmdir path _ => path
  | write path _ _ _ => path

/-- The operation on its node.  Directories are not written to. -/
def apply (fs : Fs) (node : VfsNode) (fuel : ℕ) (w : World) : Op → Option World
  | create _ name mode => (Fat32.create fs node name mode fuel w).map Prod.snd
  | mkdir _ name mode => (Fat32.mkdir fs node name mode fuel w).map Prod.snd
  | unlink _ name => (Fat32.unlink fs node name fuel w).map Prod.snd
  | rmdir _ name => (Fat32.rmdir fs node name fuel w).map Prod.snd
  | write _ src count offset =>
      if node.isDirectory then some w
      else (Fat32.write fs node src count offset fuel w).map fun result => result.2.2

/-- Look the node up and perform the operation; nothing more happens when there is no node. -/
def run (fs : Fs) (root : VfsNode) (op : Op) (fuel : ℕ) (w : World) : Option World :=
  (lookupPath fs fuel root op.path w).bind fun
    | (none, w) => some w
    | (some node, w) => op.apply fs node fuel w

end Op

def Step (fs : Fs) (root : VfsNode) (w : World) (op : Op) (w' : World) : Prop :=
  Converges (fun fuel => op.run fs root fuel w) w'

/-- What holds between the operations. -/
structure Sound (fs : Fs) (w : World) : Prop where
  ready : Ready fs w
  consistent : Consistent fs (volume fs w)
  noLabels : NoLabels fs (volume fs w)

variable {fs : Fs} {w₀ w w' : World} {v v' : Volume} {root node : VfsNode} {o : Owner} {op : Op}

theorem Becomes.sound {gone : Set Owner} (after : Becomes fs w₀ w' v') (sound : Sound fs w)
    (evolves : Evolves fs (Fat32.volume fs w) v' gone) : Sound fs w' where
  ready := after.ready
  consistent := after.volume ▸ evolves.consistent
  noLabels := after.volume ▸ evolves.noLabels sound.noLabels

theorem lookupPath_spec (now : Becomes fs w₀ w v) (consistent : Consistent fs v)
    (h : Denotes fs v node o) (path : List CString) :
    ∃ result w', Converges (lookupPath fs · node path w) (result, w') ∧
      Becomes fs w₀ w' v ∧ ∀ target, result = some target → ∃ o', Denotes fs v target o' := by
  induction path generalizing w node o with
  | nil =>
    refine ⟨some node, w, .const fun _ => rfl, now, fun target same => ⟨o, ?_⟩⟩
    exact Option.some.inj same ▸ h
  | cons name path ih =>
    obtain ⟨found, w₁, looked, after₁, -, made⟩ := h.lookup now consistent name
    cases found with
    | none =>
      refine ⟨none, w₁, looked.imp fun fuel eq => ?_, after₁, fun _ same => by simp at same⟩
      simp [lookupPath, eq]
    | some next =>
      obtain ⟨s, addr, fsDataAddr, reach, rfl, -⟩ := made next rfl
      obtain ⟨result, w₂, ends, rest⟩ := ih after₁ (denotes_nodeOf reach node addr fsDataAddr)
      refine ⟨result, w₂, looked.seq ends fun fuel eq => ?_, rest⟩
      simp [lookupPath, eq]

theorem Op.apply_spec (sound : Sound fs w) (h : Denotes fs (volume fs w) node o) (op : Op) :
    ∃ w', Converges (op.apply fs node · w) w' ∧ Sound fs w' := by
  have now := Becomes.refl sound.ready
  cases op with
  | create _ name mode =>
    obtain ⟨r, w', v', ends, after, evolves⟩ := h.create now sound.consistent name mode
    refine ⟨w', ends.imp fun fuel eq => ?_, after.sound sound evolves⟩
    simp [apply, eq]
  | mkdir _ name mode =>
    obtain ⟨r, w', v', ends, after, evolves⟩ := h.create now sound.consistent name (mode ||| sIfdir)
    refine ⟨w', ends.imp fun fuel eq => ?_, after.sound sound evolves⟩
    simp [apply, Fat32.mkdir, eq]
  | unlink _ name =>
    obtain ⟨r, w', v', ends, after, evolves⟩ := h.unlink now sound.consistent sound.noLabels name
    refine ⟨w', ends.imp fun fuel eq => ?_, ?_⟩
    · simp [apply, eq]
    · rcases evolves with evolves | ⟨_, -, -, -, evolves⟩
      · exact after.sound sound evolves
      · exact after.sound sound evolves
  | rmdir _ name =>
    obtain ⟨r, w', v', ends, after, gone, evolves⟩ :=
      h.rmdir now sound.consistent sound.noLabels name
    refine ⟨w', ends.imp fun fuel eq => ?_, after.sound sound evolves⟩
    simp [apply, eq]
  | write _ src count offset =>
    cases kind : node.isDirectory with
    | true =>
      refine ⟨w, .const fun fuel => ?_, sound⟩
      simp [apply, kind]
    | false =>
      obtain ⟨t, rfl⟩ : ∃ t, o = some t := by
        cases o with
        | none => simp [h.kind, Volume.isDir] at kind
        | some t => exact ⟨t, rfl⟩
      obtain ⟨r, node', w', v', ends, after, evolves, -⟩ :=
        h.write now sound.consistent kind src count offset
      refine ⟨w', ends.imp fun fuel eq => ?_, after.sound sound evolves⟩
      simp [apply, kind, eq]

theorem Op.run_of_apply {P : World → Prop} (ready : Ready fs w)
    (consistent : Consistent fs (volume fs w)) (isRoot : Denotes fs (volume fs w) root none) (op : Op)
    (missing : ∀ w₁, Becomes fs w w₁ (volume fs w) → P w₁)
    (found : ∀ w₁ node o, Becomes fs w w₁ (volume fs w) → Denotes fs (volume fs w) node o →
      ∃ w', Converges (op.apply fs node · w₁) w' ∧ P w') :
    ∃ w', Step fs root w op w' ∧ P w' := by
  obtain ⟨result, w₁, looked, after, made⟩ :=
    lookupPath_spec (.refl ready) consistent isRoot op.path
  cases result with
  | none =>
    refine ⟨w₁, looked.imp fun fuel eq => ?_, missing w₁ after⟩
    simp [run, eq]
  | some node =>
    obtain ⟨o, denotes⟩ := made node rfl
    obtain ⟨w', ends, holds⟩ := found w₁ node o after denotes
    refine ⟨w', looked.seq ends fun fuel eq => ?_, holds⟩
    simp [run, eq]

theorem Op.run_spec (sound : Sound fs w) (isRoot : Denotes fs (volume fs w) root none) (op : Op) :
    ∃ w', Step fs root w op w' ∧ Sound fs w' := by
  have kept : ∀ w₁, Becomes fs w w₁ (volume fs w) → Sound fs w₁ := fun w₁ after =>
    after.sound sound (.refl sound.consistent)
  refine op.run_of_apply sound.ready sound.consistent isRoot kept fun w₁ node o after denotes => ?_
  rw [← after.volume] at denotes
  exact apply_spec (kept w₁ after) denotes op

theorem sound_step {addr fsDataAddr sb : ℕ} (sound : Sound fs w)
    (step : Step fs (rootNode fs addr fsDataAddr sb) w op w') : Sound fs w' := by
  obtain ⟨w'', step', sound'⟩ := op.run_spec sound (denotes_root fs _ addr fsDataAddr sb)
  rwa [step.unique step']

/-! ## A blank volume -/

/-- A volume of fourteen clusters of one sector. -/
def smallFs : Fs where
  dev := 0
  boot :=
    { bytesPerSector := 512, sectorsPerCluster := 1, reservedSectors := 1, numFats := 1,
      fatSize32 := 1, totalSectors32 := 16, rootCluster := 2 }
  fatOffset := 1
  dataOffset := 2
  rootCluster := 2
  totalClusters := 14
  clusterSize := 512

/-- A medium on which only the end mark of the root directory is not 0. -/
def blankWorld : World where
  devs := fun _ =>
    { totalSectors := 16, present := true, readonly := false,
      bytes := fun k => if k = 523 then 0x0F else if 520 ≤ k ∧ k < 523 then 0xFF else 0,
      faults := [], log := [] }
  heap := { next := 1, live := [], misfreed := [], oom := [], junk := fun _ => 0 }

theorem ready_blank : Ready smallFs blankWorld where
  geometry := by constructor <;> decide
  device := by constructor <;> decide
  allocator := rfl

theorem owns_blank : Owns smallFs (volume smallFs blankWorld) none [2] := by
  refine ⟨.inl (.last (by decide) ?_), fun _ => by simp⟩
  show eocMin ≤ (volume smallFs blankWorld).fat 2
  decide

theorem data_blank (c k : ℕ) : (volume smallFs blankWorld).data c k = 0 := by
  simp only [volume, clusterByte, smallFs, blankWorld, sectorSize, Fs.Valid]
  grind

theorem reach_blank {o : Owner} (h : Reach smallFs (volume smallFs blankWorld) o) : o = none := by
  cases h with
  | root => rfl
  | entry _ _ _ _ live => simp [Volume.live, Volume.ended, entryMark, data_blank] at live

theorem sound_blank : Sound smallFs blankWorld where
  ready := ready_blank
  consistent := by
    refine ⟨fun o h => ?_, fun o o' l l' h h' different => ?_⟩
    · rw [reach_blank h]
      exact ⟨[2], owns_blank⟩
    · exact absurd ((reach_blank h).trans (reach_blank h').symm) different
  noLabels := by
    intro o l _ _ _ s _
    simp [Volume.labelled, Volume.ended, entryMark, data_blank]

/-! ## Histories -/

theorem Sound.exists_run (sound : Sound fs w) (ops : List Op) (addr fsDataAddr sb : ℕ) :
    ∃ w', Run (Step fs (rootNode fs addr fsDataAddr sb)) w ops w' := by
  induction ops generalizing w with
  | nil => exact ⟨w, .nil w⟩
  | cons op ops ih =>
    obtain ⟨w₁, step, sound₁⟩ := op.run_spec sound (denotes_root fs _ addr fsDataAddr sb)
    obtain ⟨w', rest⟩ := ih sound₁
    exact ⟨w', .cons step rest⟩

/-- On a volume that is consistent as far as it is in sight and keeps the rule for end marks: behind a
history of operations every owner in sight has a chain of its own, none of whose clusters is free, and
every further operation ends. -/
theorem chains_consistent {ops : List Op} {addr fsDataAddr sb : ℕ} (ready : Ready fs w)
    (consistent : SeenConsistent fs (volume fs w)) (noLabels : NoLabelSeen fs (volume fs w))
    (marked : EndMarked fs (volume fs w))
    (run : Run (Step fs (rootNode fs addr fsDataAddr sb)) w ops w') :
    (∀ op, ∃ w'', Step fs (rootNode fs addr fsDataAddr sb) w' op w'') ∧
      (∀ o, Seen fs (volume fs w') o → ∃ l, Owns fs (volume fs w') o l ∧ l.Nodup ∧
        (∀ c ∈ l, fs.Valid c ∧ (volume fs w').fat c ≠ freeMark) ∧
        ∀ c ∈ l.getLast?, eocMin ≤ (volume fs w').fat c) ∧
      ∀ o o' l l', Seen fs (volume fs w') o → Seen fs (volume fs w') o' → o ≠ o' →
        Owns fs (volume fs w') o l → Owns fs (volume fs w') o' l' → l.Disjoint l' := by
  have sound : Sound fs w' := run.invariant (fun _ _ _ sound step => sound_step sound step)
    ⟨ready, marked.consistent consistent, marked.noLabels noLabels⟩
  refine ⟨fun op => ?_, fun o seen => ?_, fun o o' l l' seen seen' =>
    sound.consistent.apart o o' l l' seen.reach seen'.reach⟩
  · obtain ⟨w'', step, -⟩ := op.run_spec sound (denotes_root fs _ addr fsDataAddr sb)
    exact ⟨w'', step⟩
  · obtain ⟨l, owns⟩ := sound.consistent.owns o seen.reach
    exact ⟨l, owns, owns.1.nodup sound.ready.geometry,
      fun c hc => ⟨owns.1.valid hc, owns.1.fat_ne_zero hc⟩, owns.1.ends⟩

/-- A directory, a file in it and a write of two clusters on the blank volume. -/
theorem chains_consistent_blank :
    ∃ w', Run (Step smallFs (rootNode smallFs 0 0 0)) blankWorld
        [.mkdir [] [0x64] 0, .create [[0x64]] [0x66] 0,
          .write [[0x64], [0x66]] (fun _ => 1) 600 0] w' ∧
      ∀ o, Seen smallFs (volume smallFs w') o → ∃ l, Owns smallFs (volume smallFs w') o l ∧
        l.Nodup := by
  obtain ⟨w', run⟩ := sound_blank.exists_run _ 0 0 0
  have consistent := sound_blank.consistent
  have ended : ∀ s, (volume smallFs blankWorld).ended s = true := fun s => by
    simp [Volume.ended, entryMark, data_blank]
  refine ⟨w', run, fun o seen => ?_⟩
  obtain ⟨-, chains, -⟩ := chains_consistent ready_blank
    ⟨fun o seen => consistent.owns o seen.reach,
      fun o o' l l' seen seen' => consistent.apart o o' l l' seen.reach seen'.reach⟩
    (fun o l _ _ _ s _ => by simp [Volume.labelled, ended])
    (fun o l _ _ _ => List.pairwise_of_forall_mem_list fun _ _ s _ _ => ended s) run
  obtain ⟨l, owns, nodup, -⟩ := chains o seen
  exact ⟨l, owns, nodup⟩

/-! ## An entry behind the end mark -/

/-- The file `a` with cluster 3, an end mark, and behind it a second entry for the same file. -/
def staleWorld : World :=
  { blankWorld with
    devs := fun n =>
      { blankWorld.devs n with
        bytes := fun k =>
          if k = 523 ∨ k = 527 then 0x0F else if 520 ≤ k ∧ k < 527 then 0xFF
          else if k = 1024 ∨ k = 1088 then 0x41
          else if 1024 < k ∧ k < 1036 ∨ 1088 < k ∧ k < 1100 then 0x20
          else if k = 1050 ∨ k = 1114 then 3 else 0 } }

theorem ready_stale : Ready smallFs staleWorld where
  geometry := ready_blank.geometry
  device := by constructor <;> decide
  allocator := rfl

theorem owns_stale : Owns smallFs (volume smallFs staleWorld) none [2] ∧
    Owns smallFs (volume smallFs staleWorld) (some (2, 0)) [3] := by
  refine ⟨⟨.inl (.last (by decide) ?_), fun _ => by simp⟩, .inl (.last (by decide) ?_), fun other =>
    absurd other (by simp)⟩
  · show eocMin ≤ (volume smallFs staleWorld).fat 2
    decide
  · show eocMin ≤ (volume smallFs staleWorld).fat 3
    decide

theorem inSight_stale {o : Owner} {l : List ℕ} {s : Slot} (place : o = none ∨ o = some (2, 0))
    (dir : (volume smallFs staleWorld).isDir o = true)
    (owns : Owns smallFs (volume smallFs staleWorld) o l)
    (mem : s ∈ inSight (volume smallFs staleWorld) (slotsOf smallFs l)) : s = (2, 0) := by
  rcases place with rfl | rfl
  · have only : inSight (volume smallFs staleWorld) (slotsOf smallFs [2]) = [(2, 0)] := by decide
    rw [owns.unique ready_stale.geometry owns_stale.1, only] at mem
    exact List.mem_singleton.mp mem
  · exact absurd dir (by decide)

theorem seen_stale {o : Owner} (seen : Seen smallFs (volume smallFs staleWorld) o) :
    o = none ∨ o = some (2, 0) := by
  induction seen with
  | root => exact .inl rfl
  | entry _ dir owns mem _ ih => exact .inr (congrArg some (inSight_stale ih dir owns mem))

theorem consistent_stale : SeenConsistent smallFs (volume smallFs staleWorld) := by
  have g := ready_stale.geometry
  obtain ⟨root, file⟩ := owns_stale
  refine ⟨fun o seen => ?_, fun o o' l l' seen seen' different owns owns' => ?_⟩
  · rcases seen_stale seen with rfl | rfl
    · exact ⟨_, root⟩
    · exact ⟨_, file⟩
  · rcases seen_stale seen with rfl | rfl <;> rcases seen_stale seen' with rfl | rfl
    · exact absurd rfl different
    · rw [owns.unique g root, owns'.unique g file]
      simp
    · rw [owns.unique g file, owns'.unique g root]
      simp
    · exact absurd rfl different

/-- `fat32_create` of `b` takes the slot of the end mark: two entries in sight share the cluster 3. -/
theorem stale_entry_uncovered :
    (Ready smallFs staleWorld ∧ SeenConsistent smallFs (volume smallFs staleWorld) ∧
      NoLabelSeen smallFs (volume smallFs staleWorld)) ∧
    ∃ w', Step smallFs (rootNode smallFs 0 0 0) staleWorld (.create [] [0x62] 0) w' ∧
      ∀ s ∈ [(2, 0), (2, 2)], Seen smallFs (volume smallFs w') (some s) ∧
        Owns smallFs (volume smallFs w') (some s) [3] := by
  refine ⟨⟨ready_stale, consistent_stale, fun o l seen dir owns s mem => ?_⟩, ?_⟩
  · rw [inSight_stale (seen_stale seen) dir owns mem]
    decide
  have evaluated : (create smallFs (rootNode smallFs 0 0 0) [0x62] 0 5 staleWorld).map (fun r =>
      (volume smallFs r.2).fat 2 == eocMax && (volume smallFs r.2).fat 3 == eocMax &&
        [(2, 0), (2, 2)].all fun s =>
          decide (s ∈ inSight (volume smallFs r.2) (slotsOf smallFs [2])) &&
            ((volume smallFs r.2).live s && (volume smallFs r.2).first smallFs (some s) == 3)) =
      some true := by decide +kernel
  obtain ⟨⟨r, w'⟩, made, facts⟩ := Option.map_eq_some_iff.mp evaluated
  simp only [Bool.and_eq_true, beq_iff_eq, List.all_eq_true, decide_eq_true_eq] at facts
  obtain ⟨⟨rootEnds, fileEnds⟩, entries⟩ := facts
  have valid : smallFs.Valid 2 ∧ smallFs.Valid 3 := by decide
  have root : Owns smallFs (volume smallFs w') none [2] := by
    refine ⟨.inl (.last valid.1 ?_), fun _ => List.cons_ne_nil _ _⟩
    show eocMin ≤ (volume smallFs w').fat 2
    rw [rootEnds]
    decide
  refine ⟨w', ?_, fun s mem => ?_⟩
  · refine ((stable_create smallFs _ _ _ _).converges made).imp fun fuel eq => ?_
    simp [Op.run, Op.path, lookupPath, Op.apply, eq]
  · obtain ⟨sight, live, first⟩ := entries s mem
    refine ⟨.entry .root rfl root sight live, ?_, fun other => absurd other (by simp)⟩
    rw [first]
    refine .inl (.last valid.2 ?_)
    show eocMin ≤ (volume smallFs w').fat 3
    rw [fileEnds]
    decide

end Thuban.Fat32
