/-
What a failed addition leaves.

Adding a cluster fails in one of two ways.  An invalid cluster is refused
before anything is looked at, and the state stays as it was.  A valid one is
put in place, every merge that it allows is carried out, and only then is the
dataflow evaluated; if a method fails there, the call returns the failure, but
the cluster and the merges stay.  The key of the cluster is never returned.

* `Unchanged`: the same clusters, merges and frontier;
* `Strands`: an added cluster is there whose key nobody was given;
* `failed_add_run`: which of the two comes of a failed addition;
* `not_unchanged_of_failed_add`: so a failed addition may leave something.
-/
import PlanarSketch.Proofs.Lineage
import PlanarSketch.Proofs.Refusals

namespace PlanarSketch

namespace Decomposition

variable {d d' : Decomposition} {id : ClusterId}

/-- Both have the same clusters and merges under the same keys, and the same frontier. -/
structure Unchanged (d d' : Decomposition) : Prop where
  cluster : ∀ id, d'.cluster? id = d.cluster? id
  merge : ∀ k, d'.merges.find? k = d.merges.find? k
  topLevel : d'.topLevel = d.topLevel

/-- `d'` has a cluster under a key that was not in use, and no merge has it as its output. -/
structure Strands (d d' : Decomposition) (id : ClusterId) (c : Cluster) : Prop where
  unused : ¬d.Live id
  cluster : d'.cluster? id = some c
  added : d'.determining? id = none

theorem Strands.not_unchanged {c : Cluster} (h : d.Strands d' id c) : ¬d.Unchanged d' := fun hu =>
  h.unused (live_of_cluster? ((hu.cluster id).symm.trans h.cluster))

/-- After the search a new cluster is still there, and nothing has computed it. -/
theorem Sound.strands_process (h : d.Sound) {c : Cluster} (hc : c.Valid) :
    d.Strands (d.receive c).2.process d.clusters.nextKey c := by
  have hs := h.receive hc
  have hcluster : (d.receive c).2.cluster? d.clusters.nextKey = some c :=
    (cluster?_insertCluster ⟨c, false, false⟩).2 (.inr ⟨rfl, rfl⟩)
  refine ⟨not_live_nextKey, ?_, determining?_eq_none.2 fun k m hk he => ?_⟩
  · exact hs.partOf_process.cluster?_eq_some hcluster
  · -- The search does not compute what is there already, and before there was nothing to compute.
    have hold := hs.partOf_process.find?_of_output hk (he ▸ live_of_cluster? hcluster)
    exact not_live_nextKey (he ▸ (h.grounded.merge k m hold).output)

end Decomposition

namespace Solver

open Decomposition

variable {s : Solver}

theorem run_add_of_validate {c : Cluster} {f : ClusterError} (hc : c.validate = .error f) :
    (Solver.add c).run.run s = (.error (.decomposition (.cluster f)), s) := by
  have hadd : s.decomposition.add c = .error (.cluster f) := by
    unfold Decomposition.add requireValid
    rw [hc]
    rfl
  unfold Solver.add
  rw [Change.run_get_bind, hadd]
  rfl

/-- An addition that fails after any run was refused because the cluster is not valid, and then
everything is as before; or a method failed, and then the cluster stays, under a key that is not
returned, with all that was merged.  So what is there is unchanged if and only if the cluster is not
valid.  What stays can be removed by its key like any added cluster. -/
theorem failed_add_run (config : SolverConfig) (ops : List Operation) (c : Cluster)
    (e : SolverError) (h : (run config ops).reply (.add c) = .error e) :
    let s := run config ops
    let s' := s.perform (.add c)
    let id := s.decomposition.clusters.nextKey
    (¬c.Valid → s' = s ∧ ∃ f, c.validate = .error f ∧ e = .decomposition (.cluster f)) ∧
    (c.Valid → (∃ f, e = .dataflow (.method f)) ∧
      s'.decomposition = (s.decomposition.receive c).2.process.withoutJournal ∧
      s.decomposition.Strands s'.decomposition id c ∧
      (Operation.remove id).Allowed s'.decomposition) ∧
    (s.decomposition.Unchanged s'.decomposition ↔ ¬c.Valid) := by
  intro s s' id
  have hmirrors := mirrors_run config ops
  have hreach := reachable_run config ops
  -- The check comes first, before anything is written.
  have hinvalid : ¬c.Valid → s' = s ∧ ∃ f, c.validate = .error f ∧
      e = .decomposition (.cluster f) := by
    intro hc
    cases hf : c.validate with
    | ok _ => exact absurd hf hc
    | error f =>
      have hrun := run_add_of_validate (s := s) hf
      refine ⟨congrArg Prod.snd hrun, f, rfl, ?_⟩
      have hreply : s.reply (.add c) = .error (.decomposition (.cluster f)) := by
        rw [reply, hrun]
        rfl
      exact (Except.error.inj (hreply.symm.trans h)).symm
  -- A valid cluster is received and merged before the propagation starts, and stays whatever that
  -- does.
  have hvalid : c.Valid →
      s'.decomposition = (s.decomposition.receive c).2.process.withoutJournal ∧
      s.decomposition.Strands s'.decomposition id c := by
    intro hc
    have hleft : s'.decomposition = (s.decomposition.receive c).2.process.withoutJournal := by
      rw [hmirrors.decomposition_perform hreach, Operation.searched?, if_pos hc]
      rfl
    obtain ⟨hunused, hcluster, hadded⟩ := hreach.sound.strands_process hc
    exact ⟨hleft, hunused, by rw [hleft]; exact hcluster, by rw [hleft]; exact hadded⟩
  refine ⟨hinvalid, fun hc => ?_, fun hu hc => (hvalid hc).2.not_unchanged hu, fun hc => ?_⟩
  · obtain ⟨hleft, hstrands⟩ := hvalid hc
    refine ⟨?_, hleft, hstrands, live_of_cluster? hstrands.cluster, hstrands.added⟩
    have hallowed : (Operation.add c).Allowed s.decomposition := hc
    rcases hmirrors.reply_of_allowed hreach hallowed with hr | ⟨f, hr⟩
    · cases hr.symm.trans h
    · exact ⟨f, Except.error.inj (h.symm.trans hr)⟩
  · rw [(hinvalid hc).1]
    exact ⟨fun _ => rfl, fun _ => rfl, rfl⟩

/-- A triangle whose only candidate lacks the point `c`, and a hedgehog that grows by the triangle:
the angle to `c` cannot be derived, and the hedgehog stays. -/
theorem failed_add_run_hedgehog :
    let ops : List Operation := [.add (.rigid (.ofList ["a", "b", "c"])),
      .assign ⟨1⟩ [.ofList [("a", ⟨0, 0⟩), ("b", ⟨1, 0⟩)]]]
    let hog : Cluster := .hedgehog "a" (.ofList ["b", "d"])
    (run {} ops).reply (.add hog) =
        .error (.dataflow (.method (.missingPoint "derive_hog" "c"))) ∧
      hog.Valid ∧
      (run {} ops).decomposition.Strands ((run {} ops).perform (.add hog)).decomposition
        ⟨2⟩ hog := by
  intro ops hog
  have hreply : (run {} ops).reply (.add hog) =
      .error (.dataflow (.method (.missingPoint "derive_hog" "c"))) := by decide +kernel
  have hvalid : hog.Valid := by decide
  obtain ⟨-, -, hstrands, -⟩ := (failed_add_run {} ops hog _ hreply).2.1 hvalid
  have hkey : (run {} ops).decomposition.clusters.nextKey = ⟨2⟩ := by decide +kernel
  exact ⟨hreply, hvalid, hkey ▸ hstrands⟩

/-- A failed addition may leave something behind. -/
theorem not_unchanged_of_failed_add :
    ¬∀ (config : SolverConfig) (ops : List Operation) (c : Cluster) (e : SolverError),
      (run config ops).reply (.add c) = .error e →
        (run config ops).decomposition.Unchanged
          ((run config ops).perform (.add c)).decomposition := by
  intro h
  let ops : List Operation := [.add (.rigid (.ofList ["a", "b", "c"])),
    .assign ⟨1⟩ [.ofList [("a", ⟨0, 0⟩), ("b", ⟨1, 0⟩)]]]
  let hog : Cluster := .hedgehog "a" (.ofList ["b", "d"])
  have hunchanged := (h {} ops hog (.dataflow (.method (.missingPoint "derive_hog" "c")))
    (by decide +kernel)).cluster ⟨2⟩
  have hbefore : (run {} ops).decomposition.cluster? ⟨2⟩ = none := by decide +kernel
  have hafter : ((run {} ops).perform (.add hog)).decomposition.cluster? ⟨2⟩ = some hog := by
    decide +kernel
  cases hafter.symm.trans (hunchanged.trans hbefore)

end Solver

end PlanarSketch
