/-
The runs of one node.  Nothing is assumed about the peers: its inbox holds
whatever they like at every step.
-/
import ConsensusDag.EventFlow

namespace ConsensusDag

variable {P D T H PK SK Sig : Type}

/-- The listener takes a step that puts its event into the store. -/
def Takes (n n' : NodeState P D T H PK SK Sig) (event : Event P D T H Sig) :
    Prop :=
  ∃ answer rest, n.listener = .checked answer event rest ∧
    n'.listener = .inserted answer event rest

/-- So does `procedure_a`. -/
def Makes (n n' : NodeState P D T H PK SK Sig) (event : Event P D T H Sig) :
    Prop :=
  n.procA = .formed event ∧ n'.procA = .start

variable [LinearOrder P] [LinearOrder H] [Inhabited H]

/-- The states of a node that is started on an empty store, with the transactions
handed in so far.  Of an event that is inserted, `received` or `made` holds. -/
inductive SoloRun (env : Env P D T H PK SK Sig) (conf : DAGconfig P PK SK)
    (received made : DAGcore P D T H PK SK Sig → Event P D T H Sig → Prop) :
    List D → NodeState P D T H PK SK Sig → Prop
  | start {core : DAGcore P D T H PK SK Sig} :
      DAGcore.new env conf SledStore.empty = .ok core →
      SoloRun env conf received made [] ⟨core, .start, .idle, .idle⟩
  | step {submitted : List D} {n n' : NodeState P D T H PK SK Sig}
      {out : Output P D T H Sig} (requests : List (SyncReq P))
      (replies : List (Answer P D T H Sig)) :
      SoloRun env conf received made submitted n →
      NodeStep env requests replies n n' out →
      (∀ event, Takes n n' event → received n.core event) →
      (∀ event, Makes n n' event → made n.core event) →
      SoloRun env conf received made (submitted ++ out.submitted) n'

/-- Any event may come in. -/
def anyEvent (_ : DAGcore P D T H PK SK Sig) (_ : Event P D T H Sig) : Prop :=
  True

variable {env : Env P D T H PK SK Sig} {conf : DAGconfig P PK SK}
  {received made : DAGcore P D T H PK SK Sig → Event P D T H Sig → Prop}
  {submitted : List D} {n : NodeState P D T H PK SK Sig}

/-- The configuration with which a node is started. -/
def startConf (conf : DAGconfig P PK SK) : DAGconfig P PK SK :=
  { conf with peers := conf.peers.setCreator conf.creator }

/-- The ids of the peers stay those that the node was started with. -/
theorem ids_perm_of_sameKeys {conf' : DAGconfig P PK SK}
    (h : (startConf conf).SameKeys conf') :
    (conf'.peers.peers.map DAGPeer.id).Perm (conf.peers.peers.map DAGPeer.id) := by
  rw [DAGPeerList.map_id_eq, h.keys, ← DAGPeerList.map_id_eq]
  exact (conf.peers.setCreator_peers_perm conf.creator).map _

theorem SoloRun.sameKeys (h : SoloRun env conf received made submitted n) :
    (startConf conf).SameKeys n.core.conf := by
  induction h with
  | start hnew =>
      obtain ⟨store, -, rfl⟩ := DAGcore.new_eq_ok hnew
      exact .refl _
  | step _ _ _ hstep _ _ ih => exact ih.trans hstep.sameKeys

theorem SoloRun.creator_eq (h : SoloRun env conf received made submitted n) :
    n.core.conf.creator = conf.creator :=
  h.sameKeys.creator

theorem SoloRun.ids_perm (h : SoloRun env conf received made submitted n) :
    (n.core.conf.peers.peers.map DAGPeer.id).Perm
      (conf.peers.peers.map DAGPeer.id) :=
  ids_perm_of_sameKeys h.sameKeys

/-- A node that is among its peers signs under its own id. -/
theorem SoloRun.creatorId_eq (h : SoloRun env conf received made submitted n)
    (hmem : conf.creator ∈ conf.peers.peers.map DAGPeer.id) :
    n.core.conf.peers.getCreatorId = .ok conf.creator :=
  h.sameKeys.creatorId (DAGPeerList.getCreatorId_setCreator_of_mem hmem)

end ConsensusDag
