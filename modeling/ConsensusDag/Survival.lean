/-
Messages and what becomes of a node that processes them, over all interleavings with
its other threads.  A reply has to be such that the listener can digest it, a request
such that the counting of `procedure_b` ends, and no lock may be poisoned.
-/
import ConsensusDag.Poisoning
import Mathlib.Data.List.Permutation

namespace ConsensusDag

open Relation

variable {P D T H PK SK Sig : Type}

namespace GuardedNode

def take (g : GuardedNode P D T H PK SK Sig) (req : SyncReq P) :
    GuardedNode P D T H PK SK Sig :=
  { g with node := g.node.take req }

end GuardedNode

variable [LinearOrder P] [LinearOrder H] [Inhabited H]

/-- An unwrap in the section that the listener comes to next fails, of a lock or of a
result. -/
def ListenerFails (env : Env P D T H PK SK Sig) (g : GuardedNode P D T H PK SK Sig) :
    Prop :=
  (g.node.listener ≠ .idle ∧ ¬ g.Free g.node.listener.locks) ∨ UnwrapFails env g.node

/-- The same for `procedure_b`, whose additions can fail too.  The gossip list is a hash
map: its entries come in any order. -/
def ProcBFails (debug : Bool) (g : GuardedNode P D T H PK SK Sig) : Prop :=
  (g.node.procB ≠ .idle ∧ ¬ g.Free (g.node.procB.locks debug)) ∨
    ∃ req gossip, g.node.procB = .updated req ∧
      gossip.entries.Perm req.gossipList.entries ∧
      g.node.core.store.getEventsForGossip gossip = .error .panic

/-- A step of some thread while no reply comes in.  `procedure_a` finds what it counts
on when it takes one. -/
def Quiet (env : Env P D T H PK SK Sig) (debug : Bool)
    (g g' : GuardedNode P D T H PK SK Sig) : Prop :=
  ∃ requests thread, GuardedStep env debug requests [] thread g g' ∧
    (thread = .procedureA → Provided env g.node)

/-- A step while no request comes in, where neither the listener panics. -/
def Calm (env : Env P D T H PK SK Sig) (debug : Bool)
    (g g' : GuardedNode P D T H PK SK Sig) : Prop :=
  ∃ replies thread, GuardedStep env debug [] replies thread g g' ∧
    (thread = .procedureA → Provided env g.node) ∧
    (thread = .listener → ¬ ListenerFails env g)

/-- Whatever the other threads do meanwhile, `procedure_b` works through the request. -/
structure SurvivesRequest (env : Env P D T H PK SK Sig) (debug : Bool)
    (g : GuardedNode P D T H PK SK Sig) (req : SyncReq P) : Prop where
  log : logRequest debug g.node.core.conf.peers req = .ok ()
  receipt : g.Free ((ProcB.idle : ProcB P D T H Sig).locks debug)
  unwraps : ∀ g', ReflTransGen (Calm env debug) (g.take req) g' →
    ¬ ProcBFails debug g'
  ends : ∀ g', ReflTransGen (Calm env debug) (g.take req) g' →
    ∃ g'', ReflTransGen (Calm env debug) g' g'' ∧ g''.node.procB = .idle

section Runs

variable {env : Env P D T H PK SK Sig} {conf : DAGconfig P PK SK} {debug : Bool}
  {g g' : GuardedNode P D T H PK SK Sig} {n n' : NodeState P D T H PK SK Sig}
  {out : Output P D T H Sig}

/-- The listener goes through a section. -/
theorem quiet_of_listener (hfree : g.Free g.node.listener.locks)
    (hstep : NodeStep env [] [] g.node n' out)
    (hlistener : n'.listener ≠ g.node.listener) (hprocA : n'.procA = g.node.procA)
    (hprocB : n'.procB = g.node.procB) : Quiet env debug g ⟨n', g.poisoned⟩ := by
  refine ⟨[], .listener, .goes ⟨⟨out, hstep⟩, rfl, fun _ => ⟨rfl, hfree⟩,
    fun hne => absurd hprocA hne, fun hne => absurd hprocB hne,
    fun heq => absurd heq hlistener, fun req hidle hupdated => ?_⟩, nofun⟩
  rw [hprocB, hidle] at hupdated
  cases hupdated

theorem Digesting.quiet_run (h : Digesting env g.node) (hsound : Sound env g)
    (hrun : ReflTransGen (Quiet env debug) g g') :
    Digesting env g'.node ∧ Sound env g' := by
  induction hrun with
  | refl => exact ⟨h, hsound⟩
  | tail _ hstep ih =>
      obtain ⟨requests, thread, hstep, hprovided⟩ := hstep
      obtain ⟨h', hsound'⟩ := ih
      obtain ⟨hsound'', out, hnode⟩ := hsound'.step hstep hprovided
        fun _ => (h'.progress hsound'.core).1
      exact ⟨h'.step hnode, hsound''⟩

/-- The listener alone brings the reply to its end. -/
theorem Digesting.ends (h : Digesting env g.node) (hsound : Sound env g) :
    ∃ g', ReflTransGen (Quiet env debug) g g' ∧ g'.node.listener = .idle := by
  induction hmeasure : g.node.listener.remaining using Nat.strong_induction_on
      generalizing g with
  | h m ih =>
      by_cases hidle : g.node.listener = .idle
      · exact ⟨g, .refl, hidle⟩
      · obtain ⟨n', hstep, hprocA, hprocB, hlt⟩ := (h.progress hsound.core).2 hidle
        have hmoves : n'.listener ≠ g.node.listener := fun heq =>
          absurd (congrArg Listener.remaining heq) (Nat.ne_of_lt hlt)
        have hquiet : Quiet env debug g ⟨n', g.poisoned⟩ :=
          quiet_of_listener (hsound.free _) hstep hmoves hprocA hprocB
        obtain ⟨h', hsound'⟩ := h.quiet_run hsound (.single hquiet)
        obtain ⟨g'', hrun, hend⟩ := ih _ (hmeasure ▸ hlt) h' hsound' rfl
        exact ⟨g'', .head hquiet hrun, hend⟩

/-- The sections that `procedure_b` has before it until it is idle. -/
def ProcB.remaining : ProcB P D T H Sig → Nat
  | .idle => 0
  | .updated _ => 4
  | .collected _ _ _ => 3
  | .listed _ _ _ _ => 2
  | .formed _ _ => 1

theorem SurvivesRequest.runsOut {req : SyncReq P} (h : SurvivesRequest env debug g req)
    (hrun : ReflTransGen (Calm env debug) (g.take req) g')
    (hproc : g'.node.procB = .updated req) :
    g'.node.core.store.RunsOut req.gossipList.entries := by
  by_contra hfull
  exact h.unwraps g' hrun
    (Or.inr ⟨req, _, hproc, .refl _, getEventsForGossip_panics hfull⟩)

end Runs

namespace TwoPeers

end TwoPeers

end ConsensusDag
