import Yfs.Rsm.History

/-!
# Restore — what an acceptor keeps when it restores the log of a peer

`rsm::join` overwrites the log of a node with the dump of a peer and replays it over the live
state.  A dump has the promises and accepted values of the peer, not those of the node.  If the
peer is not behind, nothing that the node has decided, promised or accepted is lost, neither in
memory nor in its log (`restore_keeps`).  `joinreq` does not compare the two: a member that
restarts and joins again may lose a promise (`promise_forgotten`).
-/

namespace Yfs
namespace Paxos

open Lib

instance (b d : Acceptor) : Decidable (Below b d) :=
  decidable_of_iff
    (b.instanceH ≤ d.instanceH ∧
      (d.instanceH = b.instanceH → b.nH.n = 0 ∨ b.nH ≤ d.nH) ∧
      (d.instanceH = b.instanceH → b.nA.n = 0 ∨ b.nA ≤ d.nA) ∧
      (d.instanceH = b.instanceH → b.vA = [] ∨ d.vA = b.vA ∨
        (d.nA.n ≠ 0 ∧ b.nA < d.nA ∧ d.vA ≠ [])))
    ⟨fun h => ⟨h.1, h.2.1, h.2.2.1, h.2.2.2⟩, fun h => ⟨h.instanceH, h.nH, h.nA, h.vA⟩⟩

theorem durable_replay {rs : List Record} (hwf : ∀ r ∈ rs, r.Wf) (x : Str) :
    Durable (rs.foldl Record.apply (fresh x (lines rs))) := by
  have hkeep := foldl_apply_me_file rs (fresh x (lines rs))
  refine ⟨rs, hwf, hkeep.2, ?_⟩
  intro file
  rw [hkeep.1]
  have hfresh : SameState (fresh x file) (fresh x (lines rs)) :=
    ⟨rfl, rfl, rfl, rfl, rfl, fun _ => rfl, fun _ => rfl⟩
  exact hfresh.foldl_apply rs

/-- A log is restored only after it was dumped. -/
theorem logdump_of_restore {s t : State} {x text : Str} {junk : UInt32}
    (h : step s (.restore x text junk) = some t) : Msg.logdump text ∈ s.net := by
  rcases Option.ite_none_right_eq_some.1 h with ⟨hc, _⟩
  exact hc.2

/-- The state that a log stands for, read by `x`. -/
def recorded (x text : Str) : Option Acceptor := restore 0 (fresh x []) text

theorem Logged.recorded {rs : List Record} {d : Acceptor} (hd : Logged rs d) (x : Str) :
    recorded x d.file = some (rs.foldl Record.apply (fresh x d.file)) :=
  logread_lines hd.wf 0 hd.file

end Paxos

namespace Config
namespace Cluster

open Lib Paxos

/-- A log is restored only if it stands for a state that is not behind. -/
def NotBehind (c : Cluster) : Event → Prop
  | .paxos (.restore x text _) => ∃ d ∈ recorded x text, Below (c.node x).acc d
  | _ => True

instance (c : Cluster) (e : Event) : Decidable (NotBehind c e) :=
  match e with
  | .paxos (.restore x text _) =>
      inferInstanceAs (Decidable (∃ d ∈ recorded x text, Below (c.node x).acc d))
  | .paxos (.run _ _ _ _) | .paxos (.call _) | .paxos (.skip _) | .paxos (.reply _ _)
  | .paxos (.endLoop _) | .paxos (.handle _) | .paxos (.restart _ _) | .paxos (.dump _)
  | .add _ _ _ | .removeWo _ _ | .run _ | .paxosCommit _ _ _ | .wake _ | .beat _ _
  | .heartbeat _ | .lose _ => isTrue trivial

/-- Every log has the history of its acceptor and replays to it. -/
structure Kept (c : Cluster) : Prop where
  clean : Clean c.sys.pax
  hist : ClusterHist c

theorem durable_of_restored {rs : List Record} {d r : Acceptor} {x : Str} (hd : Logged rs d)
    (hr : Logged rs r) (hsame : SameState r (rs.foldl Record.apply (fresh x d.file))) :
    Durable r := by
  rw [hd.file] at hsame
  refine (durable_replay hd.wf x).of_sameState hsame ?_
  exact hr.file.trans (foldl_apply_me_file rs (fresh x (lines rs))).2.symm

/-- The restored log and what it stands for. -/
theorem Kept.restore_sameState {c : Cluster} (hc : Kept c) {x text : Str} {junk : UInt32}
    (hok : NotBehind c (.paxos (.restore x text junk))) (hm : Msg.logdump text ∈ c.sys.pax.net) :
    ∃ r u, restore junk (c.node x).acc text = some r ∧ r.me = x ∧
      height text = u.instanceH ∧ Below (c.node x).acc u ∧ SameState r u ∧ Durable r := by
  rcases hok with ⟨u, hu, hbelow⟩
  rcases hc.hist.pax.dump text hm with ⟨d, ⟨rs, hd⟩, rfl⟩
  rcases hc.hist.gapless x with ⟨rs', hlog⟩
  cases Option.some.inj ((hd.recorded x).symm.trans hu)
  rcases Paxos.restore_sameState hlog hd hbelow junk with ⟨r, hr, hlog', hme, hsame⟩
  refine ⟨r, _, hr, hme.trans (hc.clean.node x).me, ?_, hbelow, hsame,
    durable_of_restored hd hlog' hsame⟩
  rw [hd.height_eq, (hd.replay x).2.1]

theorem Kept.forward {c : Cluster} (hc : Kept c) {a : Action} {t : State}
    (hok : NotBehind c (.paxos a)) (ht : Paxos.step c.sys.pax a = some t) :
    Forward c.sys.pax a := by
  cases a with
  | restore x text junk =>
      rcases hc.restore_sameState hok (logdump_of_restore ht) with ⟨r, u, _, _, hu, hbelow, _⟩
      change (c.node x).acc.instanceH ≤ height text
      exact hu ▸ hbelow.instanceH
  | _ => trivial

/-- A node that bootstraps keeps its first view. -/
theorem Kept.first_of_below {c : Cluster} (hc : Kept c) {x : Str} {r : Acceptor}
    (h : Below (c.node x).acc r) : (c.node x).first = true → r.instanceH ≠ 0 := by
  intro hf h0
  have hle := h.instanceH
  rw [h0] at hle
  exact (hc.clean.node x).first hf (UInt32.le_zero_iff.mp hle)

theorem Kept.clean_step {c : Cluster} (hc : Kept c) {a : Action} {t : State}
    (hok : NotBehind c (.paxos a))
    (hnew : ∀ p inst cur newv, a = .run p inst cur newv → '\n' ∉ newv)
    (ht : Paxos.step c.sys.pax a = some t) : Clean t := by
  refine hc.clean.step_of hnew ?_ ht
  rintro x text junk acc rfl hm hacc
  rcases hc.restore_sameState hok hm with ⟨r, u, hr, hme, _, hbelow, hsame, hd⟩
  cases Option.some.inj (hr.symm.trans hacc)
  exact ⟨hd, hme, hc.first_of_below (hbelow.of_sameVotes hsame.sameVotes)⟩

theorem Kept.step {c d : Cluster} {e : Event} (hc : Kept c) (hok : NotBehind c e)
    (h : Cluster.step c e = some d) : Kept d := by
  -- the acceptors stay, and with them the logs
  have hkeep : ∀ {x : Str} {nd : Node}, nd.acc = (c.node x).acc → nd.myN = (c.node x).myN →
      nd.first = (c.node x).first → (∀ r, nd.run = some r → (c.node x).run = some r) →
      Clean (c.sys.pax.setNode x nd) := by
    intro x nd hacc hmyN hfirst hrun
    have hx := hc.clean.node x
    refine hc.clean.setNode ⟨?_, ?_, ?_, ?_, fun r hr => hx.run r (hrun r hr)⟩
    · rw [hacc]
      exact hx.durable
    · rw [hacc]
      exact hx.me
    · rw [hmyN]
      exact hx.myN
    · rw [hacc, hfirst]
      exact hx.first
  have hfwd : ForwardEvent c e := by
    cases e with
    | paxos a =>
        cases step_move h with
        | paxos hrun ht => exact hc.forward hok ht
        | ask he _ | gone he => simp at he
    | _ => trivial
  refine ⟨?_, hc.hist.step hfwd h⟩
  cases step_move h with
  | @paxos a t hrun ht =>
      refine hc.clean_step hok ?_ ht
      rintro p inst cur newv rfl
      cases hrun
  | @run k t hk ht =>
      refine hc.clean_step (a := .run k.p k.inst k.cur k.newv) trivial ?_ ht
      rintro p inst cur newv ⟨⟩
      exact (hc.hist.ask k hk).newv
  | paxosCommit _ => exact hkeep rfl rfl rfl fun r hr => hr
  | abort _ _ _ => exact hkeep rfl rfl rfl fun r hr => by cases hr
  | _ => exact hc.clean

theorem kept_reach {c : Cluster} (h : Reach Booted step NotBehind c) : Kept c := by
  refine Reach.invariant (I := Kept) ?_ (fun _ _ _ hc hok hstep => hc.step hok hstep) h
  rintro c ⟨first, hf, rfl⟩
  exact ⟨(start_boot hf (i := 2) (by decide)).clean, clusterHist_started (started_boot hf)⟩

/-- A node that restores the dump of a peer which is not behind forgets nothing, neither in
memory nor in what its log stands for after the next crash. -/
theorem restore_keeps {c : Cluster} (h : Reach Booted step NotBehind c) (A B : Str)
    (hbelow : Below (c.node B).acc (c.node A).acc) (junk : UInt32) :
    ∃ r, restore junk (c.node B).acc (dump (c.node A).acc) = some r ∧ Below (c.node B).acc r ∧
      ∀ junk', ∃ r', acceptor junk' (c.node B).first B (c.node B).value r.file = some r' ∧
        Below (c.node B).acc r' := by
  have hc := kept_reach h
  rcases hc.hist.gapless A with ⟨rs, hA⟩
  rcases hc.hist.gapless B with ⟨rs', hB⟩
  have hvotes := hA.sameVotes (hc.clean.node A).durable B
  have hbelow' := hbelow.of_sameVotes hvotes
  rcases Paxos.restore_sameState hB hA hbelow' junk with ⟨r, hr, hlog, hme, hsame⟩
  rw [hA.dump_eq]
  have hr' : Below (c.node B).acc r := hbelow'.of_sameVotes hsame.sameVotes
  refine ⟨r, hr, hr', ?_⟩
  intro junk'
  rcases acceptor_of_durable (durable_of_restored hA hlog hsame) junk' (hc.first_of_below hr')
    (c.node B).value with ⟨r', hacc, hsame', _⟩
  rw [hme.trans (hc.clean.node B).me] at hacc
  exact ⟨r', hacc, hr'.of_sameVotes hsame'.sameVotes⟩

/-- `b` joins with the log of `a`, and `a` starts to add `c`. -/
def joinB : List Event :=
  addB ++ [.paxos (.dump ['a']), .paxos (.restore ['b'] logOfA 0)] ++
    addRun ['a'] ['c'] 2 [['a'], ['b']]

/-- Both members promise the number of `a`; then `b` may restore the log of `a`. -/
theorem restore_keeps_promise :
    ∃ c, Reach Booted step NotBehind c ∧ (c.node ['b']).acc.nH.n ≠ 0 ∧
      ∃ r, restore 0 (c.node ['b']).acc (dump (c.node ['a']).acc) = some r ∧
        Below (c.node ['b']).acc r := by
  let n : PropT := { n := 2, m := ['a'] }
  let z : PropT := { n := 0, m := ['a'] }
  have hrun : ∃ c, Reach Booted step NotBehind c ∧ (c.node ['b']).acc.nH.n ≠ 0 ∧
      Below (c.node ['b']).acc (c.node ['a']).acc :=
    Reach.exists_of_runFrom
      (joinB ++ paxosSteps (prepareAt ['a'] 1 ['a'] { inst := 3, n := n } z ++
        prepareAt ['a'] 1 ['b'] { inst := 3, n := n } z))
      booted_a (by decide +kernel)
  rcases hrun with ⟨c, hreach, hn, hbelow⟩
  rcases restore_keeps hreach ['a'] ['b'] hbelow 0 with ⟨r, hr, hkeep, _⟩
  exact ⟨c, hreach, hn, r, hr, hkeep⟩

/-- The prepare of `a` is lost on its way to `a` itself, and `b` promises.  Then `b` restarts
and joins again through `a`: its promise is gone, from memory and from its log. -/
theorem promise_forgotten :
    ∃ c r r', Reach Booted step anyStep c ∧ (c.node ['b']).acc.nH.n ≠ 0 ∧
      restore 0 (c.node ['b']).acc (dump (c.node ['a']).acc) = some r ∧
      r.instanceH = (c.node ['b']).acc.instanceH ∧ r.nH < (c.node ['b']).acc.nH ∧
      acceptor 0 (c.node ['b']).first ['b'] (c.node ['b']).value r.file = some r' ∧
      r'.instanceH = (c.node ['b']).acc.instanceH ∧ r'.nH < (c.node ['b']).acc.nH := by
  let n : PropT := { n := 2, m := ['a'] }
  let z : PropT := { n := 0, m := ['a'] }
  have hrun : ∃ c, Reach Booted step anyStep c ∧ (c.node ['b']).acc.nH.n ≠ 0 ∧
      ∃ r ∈ restore 0 (c.node ['b']).acc (dump (c.node ['a']).acc),
        r.instanceH = (c.node ['b']).acc.instanceH ∧ r.nH < (c.node ['b']).acc.nH ∧
        ∃ r' ∈ acceptor 0 (c.node ['b']).first ['b'] (c.node ['b']).value r.file,
          r'.instanceH = (c.node ['b']).acc.instanceH ∧ r'.nH < (c.node ['b']).acc.nH :=
    Reach.exists_of_runFrom
      (joinB ++ paxosSteps (.skip ['a'] ::
        prepareAt ['a'] 1 ['b'] { inst := 3, n := n } z ++ [.restart ['b'] 0]))
      booted_a (by decide +kernel)
  rcases hrun with ⟨c, hreach, hn, r, hr, hinst, hlt, r', hr', hinst', hlt'⟩
  exact ⟨c, r, r', hreach, hn, hr, hinst, hlt, hr', hinst', hlt'⟩

end Cluster
end Config
end Yfs
