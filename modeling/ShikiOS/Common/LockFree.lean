import ShikiOS.Lib.Chain
import ShikiOS.Lib.Run

/-!
# The lock-free queue (`common/list.c`)

Any number of processors add nodes to a linked list and fetch them from it. A step is one access to
memory; a compare-exchange is one step, and being weak it may fail without a reason. The node that was
added last is fetched first.

A processor that has read a node from `*head` may be overtaken. The code relies on it that such a node
is not added again meanwhile: otherwise the compare-exchange succeeds with a link that is no longer
that of the node.

Results:
* `Inv.moved`, `Inv.done`: a step that completes no call, and one that does.
* `queue_linearizable`: the calls take effect one after the other, each of them between its beginning
  and its end.
* `reused_node_fetched_twice`: with a node that is added again too early another one is fetched twice.
-/

namespace ShikiOS.LockFree

open ShikiOS.Lib

variable {π : Type}

/-! ## Model -/

/-- Where a processor is. -/
inductive Pc
  | idle
  /-- Before `*head` is read (list.c:52). -/
  | addLoad (node : ℕ)
  /-- Before `node->next` is written (list.c:52). -/
  | addStore (node h : ℕ)
  /-- Before the expected value is read (list.c:53). -/
  | addExpect (node : ℕ)
  | addSwap (node e : ℕ)
  /-- Before the value that was found is written to `node->next`. -/
  | addFail (node v : ℕ)
  /-- Before `*head` is read (list.c:62). -/
  | fetchLoad
  /-- Before `node->next` is read (list.c:64). -/
  | fetchNext (node : ℕ)
  | fetchSwap (node x : ℕ)
  | fetchAll
deriving DecidableEq

inductive Call
  | add (node : ℕ)
  | fetch
  | fetchAll
deriving DecidableEq

/-- A call that has returned, with its result. -/
inductive Answer
  | added (node : ℕ)
  | fetched (node : ℕ)
  /-- The first of all nodes. -/
  | fetchedAll (first : ℕ)
deriving DecidableEq

/-- Memory and the processors. `called` and `done` record the calls, and the answers at the moment in
    which they are settled. -/
structure State (π : Type) where
  head : ℕ
  next : ℕ → ℕ
  pc : π → Pc
  called : List (π × Call)
  done : List (π × Answer)

/-- An empty queue, and nobody has called. -/
def init (next : ℕ → ℕ) : State π := ⟨0, next, fun _ => .idle, [], []⟩

inductive Action (π : Type)
  | call (p : π) (c : Call)
  /-- A step of a processor; a compare-exchange fails even so if `fails`. -/
  | step (p : π) (fails : Bool)

variable [DecidableEq π]

def State.goto (s : State π) (p : π) (x : Pc) : State π := { s with pc := Function.update s.pc p x }

/-- The call of `p` is settled. -/
def State.answer (s : State π) (p : π) (r : Answer) : State π :=
  { s.goto p .idle with done := s.done ++ [(p, r)] }

/-- `node->next = v`. -/
def State.setNext (s : State π) (node v : ℕ) : State π :=
  { s with next := Function.update s.next node v }

/-- The first step of a call. -/
def Call.start : Call → Pc
  | add node => .addLoad node
  | fetch => .fetchLoad
  | fetchAll => .fetchAll

/-- `add_to_queue` (list.c:49-56), `fetch_from_queue` (list.c:58-67) and `fetch_all_from_queue`
    (list.c:69-72), one access after the other. -/
def stepOf (s : State π) (p : π) (fails : Bool) : Option (State π) :=
  match s.pc p with
  | .idle => none
  | .addLoad node => some (s.goto p (.addStore node s.head))
  | .addStore node h => some ((s.setNext node h).goto p (.addExpect node))
  | .addExpect node => some (s.goto p (.addSwap node (s.next node)))
  | .addSwap node e =>
    if s.head = e ∧ fails = false then some { s.answer p (.added node) with head := node }
    else some (s.goto p (.addFail node s.head))
  | .addFail node v => some ((s.setNext node v).goto p (.addLoad node))
  | .fetchLoad =>
    if s.head = 0 then some (s.answer p (.fetched 0)) else some (s.goto p (.fetchNext s.head))
  | .fetchNext node => some (s.goto p (.fetchSwap node (s.next node)))
  | .fetchSwap node x =>
    if s.head = node ∧ fails = false then some { s.answer p (.fetched node) with head := x }
    else some (s.goto p .fetchLoad)
  | .fetchAll => some { s.answer p (.fetchedAll s.head) with head := 0 }

def step (s : State π) : Action π → Option (State π)
  | .call p c => if s.pc p = .idle then
      some { s.goto p c.start with called := s.called ++ [(p, c)] } else none
  | .step p fails => stepOf s p fails

/-- The node that a call is about to add. -/
def Pc.adds : Pc → Option ℕ
  | addLoad node => some node
  | addStore node _ => some node
  | addExpect node => some node
  | addSwap node _ => some node
  | addFail node _ => some node
  | _ => none

/-- The node that a call adds, or has read from `*head`. -/
def Pc.holds : Pc → Option ℕ
  | fetchNext node => some node
  | fetchSwap node _ => some node
  | x => x.adds

/-- What the code expects of its callers: a node that is added is in no list, and no call holds it. -/
def Fresh (s : State π) : Action π → Prop
  | .call _ (.add node) => node ≠ 0 ∧ (∀ l, Chain s.next s.head l → node ∉ l) ∧
      ∀ p, (s.pc p).holds ≠ some node
  | _ => True

/-! ## What the calls should do -/

/-- A call on a list of nodes, if this can be its answer. -/
def perform (l : List ℕ) : Answer → Option (List ℕ)
  | .added node => some (node :: l)
  | .fetched node => if node = l.headD 0 then some l.tail else none
  | .fetchedAll first => if first = l.headD 0 then some [] else none

/-- The list after the calls one after the other. -/
def replay (l : List ℕ) (done : List (π × Answer)) : Option (List ℕ) :=
  done.foldlM (fun l x => perform l x.2) l

def Answer.call : Answer → Call
  | added node => .add node
  | fetched _ => .fetch
  | fetchedAll _ => .fetchAll

/-- The call that a processor is in. -/
def Pc.call : Pc → Option Call
  | idle => none
  | fetchLoad => some .fetch
  | fetchNext _ => some .fetch
  | fetchSwap _ _ => some .fetch
  | fetchAll => some .fetchAll
  | x => x.adds.map .add

/-- The calls of `p`, and those of them that are settled. -/
def callsOf (p : π) (l : List (π × Call)) : List Call := (l.filter fun x => x.1 = p).map (·.2)

def settled (p : π) (l : List (π × Answer)) : List Call := (l.filter fun x => x.1 = p).map (·.2.call)

variable {s t : State π} {p q : π} {x : Pc} {l l' : List ℕ} {node n : ℕ} {r : Answer} {c : Call}

@[simp] theorem goto_pc_self : (s.goto p x).pc p = x := Function.update_self ..

theorem goto_pc_of_ne (h : q ≠ p) : (s.goto p x).pc q = s.pc q := Function.update_of_ne h ..

theorem holds_of_adds (h : x.adds = some n) : x.holds = some n := by
  cases x <;> simp_all [Pc.adds, Pc.holds]

omit [DecidableEq π] in
theorem replay_concat {done : List (π × Answer)} (h : replay l done = some l') :
    replay l (done ++ [(p, r)]) = perform l' r := by
  rw [replay, List.foldlM_append]
  show (replay l done).bind _ = _
  rw [h]
  show (perform l' r).bind some = _
  cases perform l' r with
  | none => rfl
  | some l => rfl

/-! ## The invariant -/

/-- The nodes of the queue are `l`. A node that is being added is in one hand, and a link that was
    read is still that of its node. -/
structure Inv (s : State π) (l : List ℕ) : Prop where
  chain : Chain s.next s.head l
  replay : replay [] s.done = some l
  nonnull : ∀ p n, (s.pc p).holds = some n → n ≠ 0
  adding : ∀ p n, (s.pc p).adds = some n → n ∉ l ∧ ∀ q, (s.pc q).holds = some n → q = p
  expected : ∀ p n e, s.pc p = .addSwap n e → s.next n = e
  link : ∀ p n e, s.pc p = .fetchSwap n e → s.next n = e
  calls : ∀ p, callsOf p s.called = settled p s.done ++ (s.pc p).call.toList

theorem inv_init (next : ℕ → ℕ) : Inv (init next : State π) [] :=
  ⟨rfl, rfl, nofun, nofun, nofun, nofun, fun _ => rfl⟩

/-- A step that completes no call. Only the node that `p` adds may get another link. -/
theorem Inv.moved (h : Inv s l) (hpc : t.pc = (s.goto p x).pc) (hhead : t.head = s.head)
    (hdone : t.done = s.done) (hcalled : t.called = s.called)
    (hnext : ∀ n, (s.pc p).adds ≠ some n → t.next n = s.next n)
    (hcall : x.call = (s.pc p).call) (hadds : ∀ n, x.adds = some n → (s.pc p).adds = some n)
    (hholds : ∀ n, x.holds = some n → (s.pc p).holds = some n ∨ n ∈ l)
    (hexpected : ∀ n e, x = .addSwap n e → t.next n = e)
    (hlink : ∀ n e, x = .fetchSwap n e → t.next n = e) : Inv t l := by
  have hself : t.pc p = x := by rw [hpc, goto_pc_self]
  have hother : ∀ q, q ≠ p → t.pc q = s.pc q := fun q hq => by rw [hpc, goto_pc_of_ne hq]
  have hadd : ∀ q n, (t.pc q).adds = some n → (s.pc q).adds = some n := by
    intro q n hn
    by_cases hq : q = p
    · subst hq
      rw [hself] at hn
      exact hadds n hn
    · rwa [hother q hq] at hn
  have hhold : ∀ q n, (t.pc q).holds = some n → (s.pc q).holds = some n ∨ n ∈ l := by
    intro q n hn
    by_cases hq : q = p
    · subst hq
      rw [hself] at hn
      exact hholds n hn
    · rw [hother q hq] at hn
      exact .inl hn
  -- A node that another call holds keeps its link.
  have hkeep : ∀ q n, q ≠ p → (s.pc q).holds = some n → t.next n = s.next n := by
    intro q n hq hn
    apply hnext
    intro hp
    exact hq ((h.adding p n hp).2 q hn)
  refine ⟨?_, by rw [hdone, h.replay], fun q n hn => ?_, fun q n hn => ?_, fun q n e hq => ?_, fun q n e hq => ?_, fun q => ?_⟩
  · rw [hhead]
    exact h.chain.congr fun n hn => hnext n fun hp => (h.adding p n hp).1 hn
  · obtain hn' | hn' := hhold q n hn
    · exact h.nonnull q n hn'
    · exact h.chain.ne_zero n hn'
  · obtain ⟨hl, huniq⟩ := h.adding q n (hadd q n hn)
    exact ⟨hl, fun q' hq' => huniq q' ((hhold q' n hq').resolve_right hl)⟩
  · by_cases hqp : q = p
    · subst hqp
      exact hexpected n e (hself.symm.trans hq)
    · rw [hother q hqp] at hq
      rw [hkeep q n hqp (by rw [hq]; rfl)]
      exact h.expected q n e hq
  · by_cases hqp : q = p
    · subst hqp
      exact hlink n e (hself.symm.trans hq)
    · rw [hother q hqp] at hq
      rw [hkeep q n hqp (by rw [hq]; rfl)]
      exact h.link q n e hq
  · rw [hcalled, hdone, h.calls q]
    by_cases hq : q = p
    · subst hq
      rw [hself, hcall]
    · rw [hother q hq]

theorem settled_concat_self (done : List (π × Answer)) :
    settled p (done ++ [(p, r)]) = settled p done ++ [r.call] := by
  simp [settled]

theorem settled_concat_of_ne (done : List (π × Answer)) (h : q ≠ p) :
    settled q (done ++ [(p, r)]) = settled q done := by
  simp [settled, Ne.symm h]

/-- A step that settles the call of `p`. New in the queue is at most the node that `p` adds. -/
theorem Inv.done (h : Inv s l) (hpc : t.pc = (s.goto p .idle).pc) (hnext : t.next = s.next)
    (hdone : t.done = s.done ++ [(p, r)]) (hcalled : t.called = s.called)
    (hcall : (s.pc p).call = some r.call) (hperform : perform l r = some l')
    (hchain : Chain s.next t.head l') (hnew : ∀ n ∈ l', n ∈ l ∨ (s.pc p).adds = some n) : Inv t l' := by
  have hself : t.pc p = .idle := by rw [hpc, goto_pc_self]
  have hother : ∀ q, q ≠ p → t.pc q = s.pc q := fun q hq => by rw [hpc, goto_pc_of_ne hq]
  have hadd : ∀ q n, (t.pc q).adds = some n → q ≠ p ∧ (s.pc q).adds = some n := by
    intro q n hn
    by_cases hq : q = p
    · subst hq
      rw [hself] at hn
      cases hn
    · exact ⟨hq, by rwa [hother q hq] at hn⟩
  have hhold : ∀ q n, (t.pc q).holds = some n → (s.pc q).holds = some n := by
    intro q n hn
    by_cases hq : q = p
    · subst hq
      rw [hself] at hn
      cases hn
    · rwa [hother q hq] at hn
  refine ⟨by rwa [hnext], ?_, fun q n hn => h.nonnull q n (hhold q n hn), fun q n hn => ?_, fun q n e hq => ?_, fun q n e hq => ?_, fun q => ?_⟩
  · rw [hdone, replay_concat h.replay, hperform]
  · obtain ⟨hqp, hn'⟩ := hadd q n hn
    obtain ⟨hl, huniq⟩ := h.adding q n hn'
    refine ⟨fun hm => ?_, fun q' hq' => huniq q' (hhold q' n hq')⟩
    obtain hm | hm := hnew n hm
    · exact hl hm
    · exact hqp (huniq p (holds_of_adds hm)).symm
  · rw [hnext]
    apply h.expected q n e
    rw [← hother q, hq]
    rintro rfl
    rw [hself] at hq
    cases hq
  · rw [hnext]
    apply h.link q n e
    rw [← hother q, hq]
    rintro rfl
    rw [hself] at hq
    cases hq
  · rw [hcalled, hdone, h.calls q]
    by_cases hq : q = p
    · subst hq
      rw [hself, settled_concat_self, hcall, Option.toList_some]
      exact (List.append_nil _).symm
    · rw [hother q hq, settled_concat_of_ne _ hq]

/-! ## Steps -/

omit [DecidableEq π] in
theorem setNext_next_of_ne {v : ℕ} (h : n ≠ node) : (s.setNext node v).next n = s.next n :=
  Function.update_of_ne h ..

/-- A node that is being added gets a link. -/
theorem Inv.stored (h : Inv s l) {v : ℕ} (hp : (s.pc p).adds = some node)
    (hcall : x.call = (s.pc p).call) (hx : x.adds = some node) (hswap : ∀ n e, x ≠ .addSwap n e) :
    Inv ((s.setNext node v).goto p x) l := by
  have hholds : ∀ n, x.holds = some n → n = node := fun n hn => by
    rw [holds_of_adds hx] at hn
    exact (Option.some.inj hn).symm
  refine h.moved rfl rfl rfl rfl (fun n hn => setNext_next_of_ne ?_) hcall (fun n hn => ?_) (fun n hn => ?_)
    (fun n e he => absurd he (hswap n e)) fun n e he => ?_
  · rintro rfl
    exact hn hp
  · rw [hx] at hn
    rw [hp, hn]
  · rw [hholds n hn]
    exact .inl (holds_of_adds hp)
  · rw [he] at hx
    cases hx

/-- A call that is given up or goes on with what it held. -/
theorem Inv.again (h : Inv s l) (hcall : x.call = (s.pc p).call)
    (hadds : ∀ n, x.adds = some n → (s.pc p).adds = some n)
    (hholds : ∀ n, x.holds = some n → (s.pc p).holds = some n ∨ n ∈ l)
    (hexpected : ∀ n e, x = .addSwap n e → s.next n = e)
    (hlink : ∀ n e, x = .fetchSwap n e → s.next n = e) : Inv (s.goto p x) l :=
  h.moved rfl rfl rfl rfl (fun _ _ => rfl) hcall hadds hholds hexpected hlink

theorem Inv.step_of {fails : Bool} (h : Inv s l) (hs : stepOf s p fails = some t) : ∃ l', Inv t l' := by
  unfold stepOf at hs
  split at hs
  · cases hs
  · rename_i node hpc
    cases hs
    exact ⟨l, h.again (by rw [hpc]; rfl) (fun n hn => by rw [hpc]; exact hn)
      (fun n hn => by rw [hpc]; exact .inl hn) nofun nofun⟩
  · rename_i node v hpc
    cases hs
    exact ⟨l, h.stored (by rw [hpc]; rfl) (by rw [hpc]; rfl) rfl nofun⟩
  · rename_i node hpc
    cases hs
    refine ⟨l, h.again (by rw [hpc]; rfl) (fun n hn => by rw [hpc]; exact hn)
      (fun n hn => by rw [hpc]; exact .inl hn) (fun n e he => ?_) nofun⟩
    cases he
    rfl
  · rename_i node e hpc
    split_ifs at hs with hswap
    · cases hs
      have hp : (s.pc p).adds = some node := by rw [hpc]; rfl
      have hlink : s.next node = s.head := (h.expected p node e hpc).trans hswap.1.symm
      refine ⟨node :: l, h.done (r := .added node) rfl rfl rfl rfl (by rw [hpc]; rfl) rfl ?_ ?_⟩
      · exact ⟨rfl, h.nonnull p node (holds_of_adds hp), by rw [hlink]; exact h.chain⟩
      · intro n hn
        rcases List.mem_cons.mp hn with rfl | hn
        · exact .inr hp
        · exact .inl hn
    · cases hs
      exact ⟨l, h.again (by rw [hpc]; rfl) (fun n hn => by rw [hpc]; exact hn)
        (fun n hn => by rw [hpc]; exact .inl hn) nofun nofun⟩
  · rename_i node v hpc
    cases hs
    exact ⟨l, h.stored (by rw [hpc]; rfl) (by rw [hpc]; rfl) rfl nofun⟩
  · rename_i hpc
    split_ifs at hs with hnull
    · cases hs
      have hl : l = [] := (hnull ▸ h.chain).eq_nil
      subst hl
      exact ⟨[], h.done (r := .fetched 0) rfl rfl rfl rfl (by rw [hpc]; rfl) rfl h.chain nofun⟩
    · cases hs
      obtain ⟨l', rfl, -⟩ := h.chain.exists_cons hnull
      refine ⟨_, h.again (by rw [hpc]; rfl) nofun (fun n hn => .inr ?_) nofun nofun⟩
      cases hn
      exact List.mem_cons_self
  · rename_i node hpc
    cases hs
    refine ⟨l, h.again (by rw [hpc]; rfl) nofun (fun n hn => by rw [hpc]; exact .inl hn) nofun
      fun n e he => ?_⟩
    cases he
    rfl
  · rename_i node e hpc
    split_ifs at hs with hswap
    · cases hs
      have hp : (s.pc p).holds = some node := by rw [hpc]; rfl
      obtain ⟨l', rfl, hl'⟩ := h.chain.exists_cons (hswap.1 ▸ h.nonnull p node hp)
      rw [hswap.1] at hl'
      have hlink : s.next node = e := h.link p node e hpc
      refine ⟨l', h.done (r := .fetched node) rfl rfl rfl rfl (by rw [hpc]; rfl) ?_ ?_ ?_⟩
      · rw [perform, if_pos (hswap.1.symm.trans h.chain.head_eq)]
        rfl
      · rwa [← hlink]
      · exact fun n hn => .inl (List.mem_cons_of_mem _ hn)
    · cases hs
      exact ⟨l, h.again (by rw [hpc]; rfl) nofun nofun nofun nofun⟩
  · rename_i hpc
    cases hs
    refine ⟨[], h.done (r := .fetchedAll s.head) rfl rfl rfl rfl (by rw [hpc]; rfl) ?_ rfl nofun⟩
    rw [perform, if_pos h.chain.head_eq]

theorem callsOf_concat_self (called : List (π × Call)) :
    callsOf p (called ++ [(p, c)]) = callsOf p called ++ [c] := by
  simp [callsOf]

theorem callsOf_concat_of_ne (called : List (π × Call)) (h : q ≠ p) :
    callsOf q (called ++ [(p, c)]) = callsOf q called := by
  simp [callsOf, Ne.symm h]

/-- A processor calls. -/
theorem Inv.called (h : Inv s l) (hpc : s.pc p = .idle) (hfresh : Fresh s (.call p c)) :
    Inv { s.goto p c.start with called := s.called ++ [(p, c)] } l := by
  have hadds : ∀ n, c.start.adds = some n → c = .add n := by
    intro n hn
    cases c with
    | add node => exact congrArg Call.add (Option.some.inj hn)
    | fetch => cases hn
    | fetchAll => cases hn
  have hholds : ∀ n, c.start.holds = some n → c = .add n := by
    intro n hn
    cases c with
    | add node => exact congrArg Call.add (Option.some.inj hn)
    | fetch => cases hn
    | fetchAll => cases hn
  have hcase : ∀ q n, ((s.goto p c.start).pc q).holds = some n →
      (q = p ∧ c = .add n) ∨ (q ≠ p ∧ (s.pc q).holds = some n) := by
    intro q n hn
    by_cases hq : q = p
    · subst hq
      rw [goto_pc_self] at hn
      exact .inl ⟨rfl, hholds n hn⟩
    · rw [goto_pc_of_ne hq] at hn
      exact .inr ⟨hq, hn⟩
  refine ⟨h.chain, h.replay, fun q n hn => ?_, fun q n hn => ?_, fun q n e hq => ?_, fun q n e hq => ?_,
    fun q => ?_⟩
  · obtain ⟨-, rfl⟩ | ⟨-, hn'⟩ := hcase q n hn
    · exact hfresh.1
    · exact h.nonnull q n hn'
  · obtain ⟨rfl, rfl⟩ | ⟨hqp, hn'⟩ := hcase q n (holds_of_adds hn)
    · refine ⟨hfresh.2.1 l h.chain, fun q' hq' => ?_⟩
      obtain ⟨hq', -⟩ | ⟨-, hq'⟩ := hcase q' n hq'
      · exact hq'
      · exact absurd hq' (hfresh.2.2 q')
    · have hadd : (s.pc q).adds = some n := by rwa [← goto_pc_of_ne (x := c.start) hqp]
      refine ⟨(h.adding q n hadd).1, fun q' hq' => ?_⟩
      obtain ⟨-, rfl⟩ | ⟨-, hq'⟩ := hcase q' n hq'
      · exact absurd hn' (hfresh.2.2 q)
      · exact (h.adding q n hadd).2 q' hq'
  · have hqp : q ≠ p := by
      rintro rfl
      have hstart : c.start = .addSwap n e := goto_pc_self.symm.trans hq
      cases c <;> cases hstart
    exact h.expected q n e ((goto_pc_of_ne hqp).symm.trans hq)
  · have hqp : q ≠ p := by
      rintro rfl
      have hstart : c.start = .fetchSwap n e := goto_pc_self.symm.trans hq
      cases c <;> cases hstart
    exact h.link q n e ((goto_pc_of_ne hqp).symm.trans hq)
  · have hold := h.calls q
    by_cases hq : q = p
    · subst hq
      show callsOf q (s.called ++ [(q, c)]) = settled q s.done ++ ((s.goto q c.start).pc q).call.toList
      rw [hpc] at hold
      rw [callsOf_concat_self, hold, goto_pc_self]
      show settled q s.done ++ [] ++ [c] = _
      rw [List.append_nil]
      cases c <;> rfl
    · show callsOf q (s.called ++ [(p, c)]) = settled q s.done ++ ((s.goto p c.start).pc q).call.toList
      rw [callsOf_concat_of_ne _ hq, goto_pc_of_ne hq, hold]

theorem Inv.next {a : Action π} (h : Inv s l) (hok : Fresh s a) (hs : step s a = some t) :
    ∃ l', Inv t l' := by
  cases a with
  | call p c =>
    rw [step] at hs
    split_ifs at hs with hpc
    cases hs
    exact ⟨l, h.called hpc hok⟩
  | step p fails => exact h.step_of hs

/-! ## Runs -/

/-- In every run in which no node is added while it is in the queue or in the hands of a call: the
    calls that are settled could have been made one after the other in this order, and the queue holds
    what these would leave. The calls of a processor are settled in their order, and all but the one
    that it is in are settled. -/
theorem queue_linearizable {next : ℕ → ℕ} (h : Run step Fresh (init next : State π) s) :
    ∃ l, replay [] s.done = some l ∧ Chain s.next s.head l ∧
      ∀ p, callsOf p s.called = settled p s.done ++ (s.pc p).call.toList := by
  have hinv : ∃ l, Inv s l := by
    refine h.invariant (I := fun s => ∃ l, Inv s l) ⟨[], inv_init next⟩ ?_
    rintro t a u ⟨l, hl⟩ hok hs
    exact hl.next hok hs
  obtain ⟨l, hl⟩ := hinv
  exact ⟨l, hl.replay, hl.chain, hl.calls⟩

/-! ## Two processors -/

/-- `Fresh`, for a queue that holds what the settled calls leave. -/
def Tested (s : State (Fin 2)) : Action (Fin 2) → Prop
  | .call _ (.add node) => node ≠ 0 ∧ Chain s.next s.head ((replay [] s.done).getD []) ∧
      node ∉ (replay [] s.done).getD [] ∧ ∀ p, (s.pc p).holds ≠ some node
  | _ => True

instance (s : State (Fin 2)) : ∀ a, Decidable (Tested s a)
  | .call _ (.add _) => inferInstanceAs (Decidable (_ ∧ _))
  | .call _ .fetch => isTrue trivial
  | .call _ .fetchAll => isTrue trivial
  | .step _ _ => isTrue trivial

theorem Tested.fresh {s : State (Fin 2)} {a : Action (Fin 2)} (h : Tested s a) : Fresh s a := by
  cases a with
  | step p fails => trivial
  | call p c =>
    cases c with
    | fetch => trivial
    | fetchAll => trivial
    | add node =>
      obtain ⟨h0, hc, hn, hp⟩ := h
      exact ⟨h0, fun l hl => by rwa [hl.unique hc], hp⟩

/-- A call and `k` steps of `p`, with nobody in between. -/
def alone (p : Fin 2) (c : Call) (k : ℕ) : List (Action (Fin 2)) :=
  .call p c :: List.replicate k (.step p false)

/-- Both processors add a node. The second one is overtaken, and its compare-exchange fails. -/
theorem queue_linearizable_two : ∃ s, Run step Fresh (init (fun _ => 0) : State (Fin 2)) s ∧
    s.done = [(0, .added 8), (1, .added 16), (0, .fetched 16)] ∧
    ∃ l, replay [] s.done = some l ∧ Chain s.next s.head l ∧
      ∀ p, callsOf p s.called = settled p s.done ++ (s.pc p).call.toList := by
  have h : (execIf step Tested (init fun _ => 0) (alone 1 (.add 16) 3 ++ alone 0 (.add 8) 4 ++
      List.replicate 6 (.step 1 false) ++ alone 0 .fetch 3)).map (·.done) =
      some [(0, .added 8), (1, .added 16), (0, .fetched 16)] := by
    decide +kernel
  obtain ⟨s, hs, hdone⟩ := Run.of_execIf_map h
  have hrun := hs.mono fun _ _ ht => Tested.fresh ht
  exact ⟨s, hrun, hdone, queue_linearizable hrun⟩

/-- The node 16 is added again while the second processor holds it. Its compare-exchange then puts
    back the node 8, which is fetched twice. -/
theorem reused_node_fetched_twice : ∃ s, Run step anyStep (init (fun _ => 0) : State (Fin 2)) s ∧
    s.done = [(0, .added 8), (0, .added 16), (0, .fetched 16), (0, .fetched 8), (0, .added 16),
      (1, .fetched 16), (0, .fetched 8)] ∧ replay [] s.done = none := by
  have h : (exec step (init fun _ => 0) (alone 0 (.add 8) 4 ++ alone 0 (.add 16) 4 ++ alone 1 .fetch 2 ++
      alone 0 .fetch 3 ++ alone 0 .fetch 3 ++ alone 0 (.add 16) 4 ++ [.step 1 false] ++
      alone 0 .fetch 3)).map (·.done) = some [(0, .added 8), (0, .added 16), (0, .fetched 16),
      (0, .fetched 8), (0, .added 16), (1, .fetched 16), (0, .fetched 8)] := by
    decide +kernel
  obtain ⟨s, hs, hdone⟩ := Option.map_eq_some_iff.mp h
  exact ⟨s, Run.of_exec hs, hdone, by rw [hdone]; decide⟩

end ShikiOS.LockFree
