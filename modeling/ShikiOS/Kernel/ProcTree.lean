import ShikiOS.Lib.Count
import ShikiOS.Lib.Ring
import ShikiOS.Lib.Run

/-!
# The process tree (`kernel/proc.c`)

Every process has a node `children`, the head of the circular list of its children, and a node
`ptnode`, by which it is in the list of its parent. Calls are atomic. A process is known by the
address of its `Proc`; `kalloc` may give the address of a reaped process to a new one.

Left out: the contexts, files, mappings and page tables of a process, and the kernel stack.

Results:
* `Inv.step`: each call keeps the lists in step with the parent pointers, and `childexit` with
  the zombies in the list of a process that has not exited.
* `Inv.exit`, `Inv.wait_returns`: the loops of `exit` and `wait` come to their end.
-/

namespace ShikiOS.Kernel.ProcTree

open ShikiOS.Lib

/-! ## State -/

/-- The list nodes of `struct Proc`. -/
inductive Node
  | children (p : ℕ)
  | ptnode (p : ℕ)
deriving DecidableEq, Repr

/-- `UNUSED`, `ZOMBIE`, and the states in between. -/
inductive Status
  | unused | active | zombie
deriving DecidableEq, Repr

/-- All processes. `procs` are the addresses in use. -/
structure State where
  procs : List ℕ
  status : ℕ → Status
  pid : ℕ → ℤ
  parent : ℕ → Option ℕ
  childexit : ℕ → ℕ
  links : Links Node

/-- `&root_proc`. -/
def rootProc : ℕ := 0

namespace State

variable (s : State)

def setParent (p q : ℕ) : State := { s with parent := Function.update s.parent p (some q) }

def setStatus (p : ℕ) (x : Status) : State := { s with status := Function.update s.status p x }

def setChildexit (p n : ℕ) : State := { s with childexit := Function.update s.childexit p n }

/-- `_insert_into_list(&q->children, &p->ptnode)`. -/
def insert (q p : ℕ) : State := { s with links := s.links.insert (.children q) (.ptnode p) }

/-- `_detach_from_list(&p->ptnode)`. -/
def detach (p : ℕ) : State := { s with links := s.links.detach (.ptnode p) }

/-- `init_proc` (proc.c:71-99). -/
def initProc (p : ℕ) (pid : ℤ) : State where
  procs := s.procs
  status := Function.update s.status p .unused
  pid := Function.update s.pid p pid
  parent := Function.update s.parent p none
  childexit := Function.update s.childexit p 0
  links := (s.links.init (.children p)).init (.ptnode p)

/-- `create_proc` (proc.c:101-106), where `kalloc` returns `p`. -/
def createProc (p : ℕ) (pid : ℤ) : Option State :=
  if p ∈ s.procs then none else some { s.initProc p pid with procs := p :: s.procs }

/-- `set_parent_to_this` (proc.c:108-125). -/
def setParentToThis (this p : ℕ) : Option State :=
  match s.parent p with
  | none => some ((s.setParent p this).insert this p)
  | some _ => none

/-- `activate_proc` (sched.c:86-116). -/
def activateProc (p : ℕ) : State :=
  match s.status p with
  | .unused => s.setStatus p .active
  | _ => s

/-- `start_proc` (proc.c:127-148). -/
def startProc (p : ℕ) : State :=
  match s.parent p with
  | none => ((s.setParent p rootProc).insert rootProc p).activateProc p
  | some _ => s.activateProc p

/-- `fork` (proc.c:316-395). -/
def fork (this p : ℕ) (pid : ℤ) : Option State := do
  let s ← s.createProc p pid
  return ((s.setParent p this).insert this p).startProc p

/-- One round of `reparent` (proc.c:204-216). -/
def adopt (x : ℕ) : State :=
  let s := ((s.setParent x rootProc).detach x).insert rootProc x
  if s.status x = .zombie then s.setChildexit rootProc (s.childexit rootProc + 1) else s

/-- The loop of `reparent` (proc.c:200-217) from `node` on. -/
def reparentLoop (this : ℕ) : ℕ → Node → State → Option State
  | 0, _, _ => none
  | fuel + 1, node, s =>
    if node = .children this then some s
    else match node with
    | .ptnode x => reparentLoop this fuel (s.links.next node) (s.adopt x)
    | .children _ => none

/-- `reparent` (proc.c:195-218). -/
def reparent (this : ℕ) : Option State :=
  reparentLoop this (s.procs.length + 1) (s.links.next (.children this)) s

/-- `exit` (proc.c:220-271). -/
def exit (this : ℕ) : Option State := do
  let s ← s.reparent this
  let s := match s.parent this with
    | some q => s.setChildexit q (s.childexit q + 1)
    | none => s
  return s.setStatus this .zombie

/-- The loop of `wait` (proc.c:168-189) from `node` on; it reaps a zombie. -/
def waitLoop (this : ℕ) : ℕ → Node → State → Option State
  | 0, _, _ => none
  | fuel + 1, node, s =>
    if node = .children this then some s
    else match node with
    | .ptnode x =>
      if s.status x = .zombie then some { s.detach x with procs := s.procs.erase x }
      else waitLoop this fuel (s.links.next node) s
    | .children _ => none

/-- `wait` (proc.c:150-192); there is no step while it sleeps. -/
def wait (this : ℕ) : Option State :=
  if s.links.next (.children this) = .children this then some s
  else if s.childexit this = 0 then none
  else
    let s := s.setChildexit this (s.childexit this - 1)
    waitLoop this (s.procs.length + 1) (s.links.next (.children this)) s

end State

/-- The state after `init_kproc` (proc.c:55-69). -/
def start : State where
  procs := [rootProc]
  status := fun _ => .active
  pid := fun _ => 1
  parent := fun _ => some rootProc
  childexit := fun _ => 0
  links := ⟨id, id⟩

/-! ## Calls -/

inductive Action
  | create (p : ℕ) (pid : ℤ)
  | setParent (this p : ℕ)
  | start (p : ℕ)
  | fork (this p : ℕ) (pid : ℤ)
  | exit (this : ℕ)
  | wait (this : ℕ)
deriving DecidableEq, Repr

/-- A process that can make a call. -/
def State.Active (s : State) (p : ℕ) : Prop := p ∈ s.procs ∧ s.status p = .active

instance (s : State) (p : ℕ) : Decidable (s.Active p) :=
  inferInstanceAs (Decidable (p ∈ s.procs ∧ s.status p = .active))

/-- The calls of active processes, about processes that exist. -/
def next (s : State) : Action → Option State
  | .create p pid => s.createProc p pid
  | .setParent this p => if s.Active this ∧ p ∈ s.procs then s.setParentToThis this p else none
  | .start p => if p ∈ s.procs then some (s.startProc p) else none
  | .fork this p pid => if s.Active this then s.fork this p pid else none
  | .exit this => if s.Active this ∧ this ≠ rootProc then s.exit this else none
  | .wait this => if s.Active this then s.wait this else none

/-! ## The invariant -/

def State.isZombie (s : State) (p : ℕ) : Bool := s.status p = .zombie

/-- `kids p` is the list of `p`, and `rank` grows from a parent to its children. The counters
    of zombies, and of `ex`, need not be right. -/
structure Inv (kids : ℕ → List ℕ) (rank : ℕ → ℕ) (ex : Option ℕ) (s : State) : Prop where
  root : s.Active rootProc
  root_parent : s.parent rootProc = some rootProc
  nodup : s.procs.Nodup
  ring : ∀ p ∈ s.procs, Ring s.links (.children p) ((kids p).map .ptnode)
  mem_kids : ∀ p ∈ s.procs, ∀ c,
    c ∈ kids p ↔ c ∈ s.procs ∧ c ≠ rootProc ∧ s.parent c = some p
  alive : ∀ c ∈ s.procs, ∀ p, s.parent c = some p → s.Active p
  orphan : ∀ c ∈ s.procs, s.parent c = none → s.status c = .unused
  rank_lt : ∀ c ∈ s.procs, ∀ p, c ≠ rootProc → s.parent c = some p → rank p < rank c
  rank_root : rank rootProc = 0
  count : ∀ p ∈ s.procs, s.status p ≠ .zombie → ex ≠ some p →
    s.childexit p = (kids p).countP s.isZombie

variable {kids : ℕ → List ℕ} {rank : ℕ → ℕ} {ex : Option ℕ} {s t : State} {p q x : ℕ}

theorem Inv.start : Inv (fun _ => []) (fun _ => 0) none start where
  root := ⟨List.mem_singleton_self _, rfl⟩
  root_parent := rfl
  nodup := List.nodup_singleton _
  ring p _ := ⟨List.isChain_pair.mpr ⟨rfl, rfl⟩, List.nodup_singleton _⟩
  mem_kids p _ c := by
    refine ⟨fun h => absurd h List.not_mem_nil, fun ⟨hc, hne, _⟩ => ?_⟩
    exact absurd (List.mem_singleton.mp hc) hne
  alive c _ p hp := by
    cases hp
    exact ⟨List.mem_singleton_self _, rfl⟩
  orphan c _ hc := by cases hc
  rank_lt c hc p hne _ := absurd (List.mem_singleton.mp hc) hne
  rank_root := rfl
  count p _ _ _ := rfl

theorem State.adopt_eq (s : State) (x : ℕ) : s.adopt x =
    if s.status x = .zombie then
      (((s.setParent x rootProc).detach x).insert rootProc x).setChildexit rootProc
        (s.childexit rootProc + 1)
    else ((s.setParent x rootProc).detach x).insert rootProc x := rfl

namespace Inv

/-- A process is in the list of one process at most. -/
theorem kids_unique (h : Inv kids rank ex s) (hp : p ∈ s.procs) (hq : q ∈ s.procs)
    (hxp : x ∈ kids p) (hxq : x ∈ kids q) : p = q := by
  have h1 := ((h.mem_kids p hp x).mp hxp).2.2
  have h2 := ((h.mem_kids q hq x).mp hxq).2.2
  exact Option.some_inj.mp (h1.symm.trans h2)

theorem nodup_kids (h : Inv kids rank ex s) (hp : p ∈ s.procs) : (kids p).Nodup :=
  (List.nodup_cons.mp (h.ring p hp).nodup).2.of_map _

/-- Only active processes have children. -/
theorem kids_nil (h : Inv kids rank ex s) (hp : p ∈ s.procs) (hstatus : s.status p ≠ .active) :
    kids p = [] := by
  refine List.eq_nil_iff_forall_not_mem.mpr fun c hc => hstatus ?_
  obtain ⟨hmem, -, hparent⟩ := (h.mem_kids p hp c).mp hc
  exact (h.alive c hmem p hparent).2

/-- The node of a process that is no child of `q` is not in the list of `q`. -/
theorem ptnode_not_mem (hx : x ∉ kids q) :
    Node.ptnode x ∉ Node.children q :: (kids q).map .ptnode := by
  rw [List.mem_cons, not_or, List.mem_map]
  refine ⟨nofun, ?_⟩
  rintro ⟨y, hy, hyx⟩
  cases hyx
  exact hx hy

theorem children_not_mem (hpq : p ≠ q) :
    Node.children p ∉ Node.children q :: (kids q).map .ptnode := by
  rw [List.mem_cons, not_or, List.mem_map]
  refine ⟨fun h => ?_, ?_⟩
  · cases h
    exact hpq rfl
  · rintro ⟨y, -, hy⟩
    cases hy

/-! ## A process gets a parent -/

/-- A process without a parent becomes the first child of `q`. -/
theorem attach (h : Inv kids rank ex s) (hp : p ∈ s.procs) (hnone : s.parent p = none)
    (hq : s.Active q) :
    Inv (Function.update kids q (p :: kids q)) (Function.update rank p (rank q + 1)) ex
      ((s.setParent p q).insert q p) := by
  have hunused := h.orphan p hp hnone
  have hroot : p ≠ rootProc := by
    rintro rfl
    rw [h.root_parent] at hnone
    cases hnone
  have hqp : q ≠ p := by
    rintro rfl
    rw [hq.2] at hunused
    cases hunused
  have hfree : ∀ r ∈ s.procs, p ∉ kids r := by
    intro r hr hmem
    have := ((h.mem_kids r hr p).mp hmem).2.2
    rw [hnone] at this
    cases this
  have hnokids : ∀ c ∈ s.procs, s.parent c ≠ some p := by
    intro c hc hparent
    have := (h.alive c hc p hparent).2
    rw [hunused] at this
    cases this
  have hparent {c : ℕ} (hc : c ≠ p) : Function.update s.parent p (some q) c = s.parent c :=
    Function.update_of_ne hc _ _
  exact {
    root := h.root
    root_parent := (hparent hroot.symm).trans h.root_parent
    nodup := h.nodup
    ring := fun r hr => by
      show Ring (s.links.insert _ _) _ _
      by_cases hrq : r = q
      · subst hrq
        rw [Function.update_self, List.map_cons]
        exact (h.ring r hr).insert (ptnode_not_mem (hfree r hr))
      · rw [Function.update_of_ne hrq]
        exact (h.ring q hq.1).insert_other (h.ring r hr) (ptnode_not_mem (hfree q hq.1))
          (ptnode_not_mem (hfree r hr)) (children_not_mem (Ne.symm hrq))
    mem_kids := fun r hr c => by
      show _ ↔ c ∈ s.procs ∧ c ≠ rootProc ∧ Function.update s.parent p (some q) c = some r
      have hold := h.mem_kids r hr c
      by_cases hcp : c = p
      · subst hcp
        rw [Function.update_self]
        by_cases hrq : r = q
        · subst hrq
          rw [Function.update_self]
          exact ⟨fun _ => ⟨hp, hroot, rfl⟩, fun _ => List.mem_cons_self⟩
        · rw [Function.update_of_ne hrq]
          refine ⟨fun hmem => absurd hmem (hfree r hr), fun hmem => ?_⟩
          exact absurd (Option.some_inj.mp hmem.2.2).symm hrq
      · rw [hparent hcp, ← hold]
        by_cases hrq : r = q
        · subst hrq
          rw [Function.update_self, List.mem_cons]
          exact ⟨fun hmem => hmem.resolve_left hcp, .inr⟩
        · rw [Function.update_of_ne hrq]
    alive := fun c hc r hr => by
      by_cases hcp : c = p
      · subst hcp
        change Function.update s.parent c (some q) c = some r at hr
        rw [Function.update_self] at hr
        cases hr
        exact hq
      · exact h.alive c hc r ((hparent hcp).symm.trans hr)
    orphan := fun c hc hc' => by
      by_cases hcp : c = p
      · exact hcp ▸ hunused
      · exact h.orphan c hc ((hparent hcp).symm.trans hc')
    rank_lt := fun c hc r hne hr => by
      by_cases hcp : c = p
      · subst hcp
        change Function.update s.parent c (some q) c = some r at hr
        rw [Function.update_self] at hr
        cases hr
        rw [Function.update_self, Function.update_of_ne hqp]
        omega
      · have hcr : s.parent c = some r := (hparent hcp).symm.trans hr
        have hrp : r ≠ p := by
          rintro rfl
          exact hnokids c hc hcr
        rw [Function.update_of_ne hcp, Function.update_of_ne hrp]
        exact h.rank_lt c hc r hne hcr
    rank_root := (Function.update_of_ne hroot.symm _ _).trans h.rank_root
    count := fun r hr hz hex => by
      have hcount := h.count r hr hz hex
      show s.childexit r = (Function.update kids q (p :: kids q) r).countP s.isZombie
      by_cases hrq : r = q
      · subst hrq
        have hp : ¬ s.isZombie p = true := by
          unfold State.isZombie
          rw [hunused]
          exact nofun
        rw [Function.update_self, List.countP_cons_of_neg hp]
        exact hcount
      · rw [Function.update_of_ne hrq]
        exact hcount }

/-! ## Creation and start -/

theorem create (h : Inv kids rank ex s) (hp : p ∉ s.procs) (pid : ℤ) :
    Inv (Function.update kids p []) rank ex { s.initProc p pid with procs := p :: s.procs } := by
  have hne {c : ℕ} (hc : c ∈ s.procs) : c ≠ p := fun e => hp (e ▸ hc)
  have hroot := hne h.root.1
  have hnotkid {r : ℕ} (hr : r ∈ s.procs) : p ∉ kids r := fun hmem =>
    hp ((h.mem_kids r hr p).mp hmem).1
  have hparent {c : ℕ} (hc : c ≠ p) : Function.update s.parent p none c = s.parent c :=
    Function.update_of_ne hc _ _
  have hstatus {c : ℕ} (hc : c ≠ p) : Function.update s.status p .unused c = s.status c :=
    Function.update_of_ne hc _ _
  have hactive {c : ℕ} (hc : s.Active c) :
      State.Active { s.initProc p pid with procs := p :: s.procs } c :=
    ⟨List.mem_cons_of_mem p hc.1, (hstatus (hne hc.1)).trans hc.2⟩
  exact {
    root := hactive h.root
    root_parent := (hparent hroot).trans h.root_parent
    nodup := List.nodup_cons.mpr ⟨hp, h.nodup⟩
    ring := fun r hr => by
      show Ring ((s.links.init (.children p)).init (.ptnode p)) _ _
      rcases List.mem_cons.mp hr with rfl | hr
      · rw [Function.update_self]
        refine ring_init.init_other ?_
        rw [List.mem_singleton]
        exact nofun
      · rw [Function.update_of_ne (hne hr)]
        refine ((h.ring r hr).init_other ?_).init_other (ptnode_not_mem (hnotkid hr))
        exact children_not_mem (hne hr).symm
    mem_kids := fun r hr c => by
      show _ ↔ c ∈ p :: s.procs ∧ c ≠ rootProc ∧ Function.update s.parent p none c = some r
      rcases List.mem_cons.mp hr with rfl | hr
      · rw [Function.update_self]
        refine ⟨fun hmem => absurd hmem List.not_mem_nil, fun ⟨hc, _, hcr⟩ => ?_⟩
        rcases List.mem_cons.mp hc with rfl | hc
        · rw [Function.update_self] at hcr
          cases hcr
        · rw [hparent (hne hc)] at hcr
          exact absurd (h.alive c hc _ hcr).1 hp
      · rw [Function.update_of_ne (hne hr), h.mem_kids r hr c]
        constructor
        · rintro ⟨hc, hc', hcr⟩
          exact ⟨List.mem_cons_of_mem p hc, hc', (hparent (hne hc)).trans hcr⟩
        · rintro ⟨hc, hc', hcr⟩
          rcases List.mem_cons.mp hc with rfl | hc
          · rw [Function.update_self] at hcr
            cases hcr
          · exact ⟨hc, hc', (hparent (hne hc)).symm.trans hcr⟩
    alive := fun c hc r hr => by
      change Function.update s.parent p none c = some r at hr
      rcases List.mem_cons.mp hc with rfl | hc
      · rw [Function.update_self] at hr
        cases hr
      · rw [hparent (hne hc)] at hr
        exact hactive (h.alive c hc r hr)
    orphan := fun c hc hc' => by
      change Function.update s.parent p none c = none at hc'
      show Function.update s.status p .unused c = .unused
      rcases List.mem_cons.mp hc with rfl | hc
      · exact Function.update_self ..
      · rw [hparent (hne hc)] at hc'
        exact (hstatus (hne hc)).trans (h.orphan c hc hc')
    rank_lt := fun c hc r hne' hr => by
      change Function.update s.parent p none c = some r at hr
      rcases List.mem_cons.mp hc with rfl | hc
      · rw [Function.update_self] at hr
        cases hr
      · rw [hparent (hne hc)] at hr
        exact h.rank_lt c hc r hne' hr
    rank_root := h.rank_root
    count := fun r hr hz hex => by
      show Function.update s.childexit p 0 r = (Function.update kids p [] r).countP _
      rcases List.mem_cons.mp hr with rfl | hr
      · rw [Function.update_self, Function.update_self]
        rfl
      · rw [Function.update_of_ne (hne hr), Function.update_of_ne (hne hr),
          h.count r hr (fun e => hz ((hstatus (hne hr)).trans e)) hex]
        refine List.countP_congr fun c hc => ?_
        have hcp : c ≠ p := hne ((h.mem_kids r hr c).mp hc).1
        show s.isZombie c = true ↔ decide (Function.update s.status p .unused c = .zombie) = true
        rw [hstatus hcp]
        rfl }

theorem activate (h : Inv kids rank ex s) (hp : p ∈ s.procs) (hparent : s.parent p ≠ none) :
    Inv kids rank ex (s.activateProc p) := by
  unfold State.activateProc
  split
  · next hunused =>
    have hactive {c : ℕ} (hc : s.Active c) : (s.setStatus p .active).Active c := by
      refine ⟨hc.1, ?_⟩
      show Function.update s.status p .active c = .active
      rw [Function.update_apply]
      split_ifs
      · rfl
      · exact hc.2
    have hzombie : (s.setStatus p .active).isZombie = s.isZombie := by
      funext c
      show decide (Function.update s.status p .active c = .zombie) = decide (s.status c = .zombie)
      by_cases hcp : c = p
      · rw [hcp, Function.update_self, hunused]
        rfl
      · rw [Function.update_of_ne hcp]
    exact {
      root := hactive h.root
      root_parent := h.root_parent
      nodup := h.nodup
      ring := h.ring
      mem_kids := h.mem_kids
      alive := fun c hc r hr => hactive (h.alive c hc r hr)
      orphan := fun c hc hc' => by
        have hcp : c ≠ p := fun e => hparent (e ▸ hc')
        exact (Function.update_of_ne hcp _ _).trans (h.orphan c hc hc')
      rank_lt := h.rank_lt
      rank_root := h.rank_root
      count := fun r hr hz hex => by
        rw [hzombie]
        refine h.count r hr (fun e => ?_) hex
        have hrp : r ≠ p := by
          rintro rfl
          rw [hunused] at e
          cases e
        exact hz ((Function.update_of_ne hrp _ _).trans e) }
  · exact h

theorem startProc (h : Inv kids rank ex s) (hp : p ∈ s.procs) :
    ∃ kids' rank', Inv kids' rank' ex (s.startProc p) := by
  unfold State.startProc
  split
  · next hnone =>
    refine ⟨_, _, (h.attach hp hnone h.root).activate hp ?_⟩
    show Function.update s.parent p _ p ≠ none
    rw [Function.update_self]
    exact Option.some_ne_none _
  · next q hq =>
    refine ⟨_, _, h.activate hp ?_⟩
    rw [hq]
    exact Option.some_ne_none _

theorem fork (h : Inv kids rank ex s) {this : ℕ} (hthis : s.Active this) {pid : ℤ}
    (hs : s.fork this p pid = some t) : ∃ kids' rank', Inv kids' rank' ex t := by
  unfold State.fork State.createProc at hs
  by_cases hp : p ∈ s.procs
  · rw [if_pos hp] at hs
    cases hs
  · rw [if_neg hp] at hs
    cases hs
    have hne : this ≠ p := fun e => hp (e ▸ hthis.1)
    have hcreate := h.create hp pid
    have hactive : State.Active { s.initProc p pid with procs := p :: s.procs } this :=
      ⟨List.mem_cons_of_mem p hthis.1, (Function.update_of_ne hne _ _).trans hthis.2⟩
    exact (hcreate.attach List.mem_cons_self (Function.update_self ..) hactive).startProc
      List.mem_cons_self

/-! ## `reparent` -/

/-- The lists after the first child of `this` has moved to the root. -/
theorem adopt_ring (h : Inv kids rank ex s) {this : ℕ} (hthis : this ∈ s.procs)
    (hroot : this ≠ rootProc) {l : List ℕ} (hl : kids this = x :: l) :
    ∀ r ∈ s.procs, Ring ((s.links.detach (.ptnode x)).insert (.children rootProc) (.ptnode x))
      (.children r)
      ((Function.update (Function.update kids this l) rootProc (x :: kids rootProc) r).map
        .ptnode) := by
  have hx : x ∈ kids this := by
    rw [hl]
    exact List.mem_cons_self
  have hfree : ∀ r ∈ s.procs, r ≠ this → x ∉ kids r := fun r hr hne hmem =>
    hne (h.kids_unique hr hthis hmem hx)
  have hnode : Node.ptnode x ∈ (kids this).map Node.ptnode := List.mem_map_of_mem hx
  have hxl : x ∉ l := by
    have := h.nodup_kids hthis
    rw [hl] at this
    exact (List.nodup_cons.mp this).1
  have hring : ∀ r ∈ s.procs, Ring (s.links.detach (.ptnode x)) (.children r)
      ((Function.update kids this l r).map .ptnode) := by
    intro r hr
    by_cases hrt : r = this
    · subst hrt
      have hold := h.ring r hr
      rw [hl, List.map_cons] at hold
      rw [Function.update_self]
      rw [← List.nil_append (Node.ptnode x :: _)] at hold
      exact hold.detach
    · rw [Function.update_of_ne hrt]
      exact (h.ring this hthis).detach_other hnode (h.ring r hr) (ptnode_not_mem (hfree r hr hrt))
  have hnot : ∀ r ∈ s.procs, x ∉ Function.update kids this l r := by
    intro r hr
    by_cases hrt : r = this
    · rw [hrt, Function.update_self]
      exact hxl
    · rw [Function.update_of_ne hrt]
      exact hfree r hr hrt
  intro r hr
  have hrootring := hring rootProc h.root.1
  have hkidsroot : Function.update kids this l rootProc = kids rootProc :=
    Function.update_of_ne hroot.symm _ _
  by_cases hrr : r = rootProc
  · subst hrr
    rw [Function.update_self, List.map_cons, ← hkidsroot]
    exact hrootring.insert (ptnode_not_mem (hnot _ hr))
  · rw [Function.update_of_ne hrr]
    exact hrootring.insert_other (hring r hr) (ptnode_not_mem (hnot _ h.root.1))
      (ptnode_not_mem (hnot r hr)) (children_not_mem (Ne.symm hrr))

/-- The first child of `this` moves to the root, with its notification if it is a zombie. -/
theorem adopt {this : ℕ} (h : Inv kids rank (some this) s) (hthis : this ∈ s.procs)
    (hroot : this ≠ rootProc) {l : List ℕ} (hl : kids this = x :: l) :
    Inv (Function.update (Function.update kids this l) rootProc (x :: kids rootProc)) rank
      (some this) (s.adopt x) := by
  have hx : x ∈ kids this := by
    rw [hl]
    exact List.mem_cons_self
  obtain ⟨hxmem, hxroot, hxparent⟩ := (h.mem_kids this hthis x).mp hx
  have hxl : x ∉ l := by
    have := h.nodup_kids hthis
    rw [hl] at this
    exact (List.nodup_cons.mp this).1
  have hparent {c : ℕ} (hc : c ≠ x) : Function.update s.parent x (some rootProc) c = s.parent c :=
    Function.update_of_ne hc _ _
  have hchildexit {r : ℕ} (hr : r ≠ rootProc) : (s.adopt x).childexit r = s.childexit r := by
    rw [State.adopt_eq]
    split
    · exact Function.update_of_ne hr _ _
    · rfl
  have hsame : (s.adopt x).procs = s.procs ∧ (s.adopt x).status = s.status ∧
      (s.adopt x).parent = Function.update s.parent x (some rootProc) ∧
      (s.adopt x).links =
        (s.links.detach (.ptnode x)).insert (.children rootProc) (.ptnode x) := by
    rw [State.adopt_eq]
    split <;> exact ⟨rfl, rfl, rfl, rfl⟩
  obtain ⟨hprocs, hstatus, hpar, hlinks⟩ := hsame
  have hactive {c : ℕ} (hc : s.Active c) : (s.adopt x).Active c := by
    unfold State.Active
    rw [hprocs, hstatus]
    exact hc
  have hzombie : (s.adopt x).isZombie = s.isZombie := by
    unfold State.isZombie
    rw [hstatus]
  exact {
    root := hactive h.root
    root_parent := by
      rw [hpar, hparent hxroot.symm]
      exact h.root_parent
    nodup := by
      rw [hprocs]
      exact h.nodup
    ring := by
      rw [hprocs, hlinks]
      exact h.adopt_ring hthis hroot hl
    mem_kids := fun r hr c => by
      rw [hprocs] at hr ⊢
      rw [hpar]
      have hold := h.mem_kids r hr c
      by_cases hcx : c = x
      · subst hcx
        rw [Function.update_self]
        by_cases hrr : r = rootProc
        · subst hrr
          rw [Function.update_self]
          exact ⟨fun _ => ⟨hxmem, hxroot, rfl⟩, fun _ => List.mem_cons_self⟩
        · rw [Function.update_of_ne hrr]
          refine ⟨fun hmem => ?_, fun hmem => absurd (Option.some_inj.mp hmem.2.2).symm hrr⟩
          by_cases hrt : r = this
          · subst hrt
            rw [Function.update_self] at hmem
            exact absurd hmem hxl
          · rw [Function.update_of_ne hrt] at hmem
            exact absurd (h.kids_unique hr hthis hmem hx) hrt
      · rw [hparent hcx, ← hold]
        by_cases hrr : r = rootProc
        · subst hrr
          rw [Function.update_self, List.mem_cons]
          exact ⟨fun hmem => hmem.resolve_left hcx, .inr⟩
        · rw [Function.update_of_ne hrr]
          by_cases hrt : r = this
          · subst hrt
            rw [Function.update_self, hl, List.mem_cons]
            exact ⟨.inr, fun hmem => hmem.resolve_left hcx⟩
          · rw [Function.update_of_ne hrt]
    alive := fun c hc r hr => by
      rw [hprocs] at hc
      rw [hpar] at hr
      by_cases hcx : c = x
      · subst hcx
        rw [Function.update_self] at hr
        cases hr
        exact hactive h.root
      · exact hactive (h.alive c hc r ((hparent hcx).symm.trans hr))
    orphan := fun c hc hc' => by
      rw [hprocs] at hc
      rw [hpar] at hc'
      rw [hstatus]
      by_cases hcx : c = x
      · subst hcx
        rw [Function.update_self] at hc'
        cases hc'
      · exact h.orphan c hc ((hparent hcx).symm.trans hc')
    rank_lt := fun c hc r hne hr => by
      rw [hprocs] at hc
      rw [hpar] at hr
      by_cases hcx : c = x
      · subst hcx
        rw [Function.update_self] at hr
        cases hr
        have := h.rank_lt c hc this hne hxparent
        rw [h.rank_root]
        omega
      · exact h.rank_lt c hc r hne ((hparent hcx).symm.trans hr)
    rank_root := h.rank_root
    count := fun r hr hz hex => by
      rw [hprocs] at hr
      rw [hstatus] at hz
      rw [hzombie]
      have hold := h.count r hr hz hex
      by_cases hrr : r = rootProc
      · subst hrr
        rw [Function.update_self]
        rw [State.adopt_eq]
        by_cases hzx : s.status x = .zombie
        · have hzx' : s.isZombie x = true := decide_eq_true hzx
          rw [List.countP_cons_of_pos hzx', ← hold, if_pos hzx]
          show Function.update s.childexit rootProc (s.childexit rootProc + 1) rootProc = _
          rw [Function.update_self]
        · have hzx' : ¬ s.isZombie x = true := fun e => hzx (of_decide_eq_true e)
          rw [List.countP_cons_of_neg hzx', ← hold, if_neg hzx]
          rfl
      · have hrt : r ≠ this := fun e => hex (congrArg some e.symm)
        rw [hchildexit hrr, Function.update_of_ne hrr, Function.update_of_ne hrt]
        exact hold }

/-- The loop of `reparent`, with the children that are left. -/
theorem reparentLoop {this : ℕ} {l : List ℕ} {fuel : ℕ} (h : Inv kids rank (some this) s)
    (hthis : s.Active this) (hroot : this ≠ rootProc) (hl : kids this = l)
    (hfuel : l.length < fuel) :
    ∃ t kids', State.reparentLoop this fuel (s.links.next (.children this)) s = some t ∧
      Inv kids' rank (some this) t ∧ kids' this = [] ∧ t.Active this := by
  induction l generalizing s kids fuel with
  | nil =>
    obtain ⟨fuel, rfl⟩ := Nat.exists_eq_add_one_of_ne_zero (Nat.ne_zero_of_lt hfuel)
    have hnext := (h.ring this hthis.1).next_head
    simp only [hl, List.map_nil, List.nil_append, List.head_cons] at hnext
    refine ⟨s, kids, ?_, h, hl, hthis⟩
    rw [hnext, State.reparentLoop, if_pos rfl]
  | cons x l ih =>
    obtain ⟨fuel, rfl⟩ := Nat.exists_eq_add_one_of_ne_zero (Nat.ne_zero_of_lt hfuel)
    have hring := h.ring this hthis.1
    have hnext := hring.next_head
    simp only [hl, List.map_cons, List.cons_append, List.head_cons] at hnext
    have hadopt := h.adopt hthis.1 hroot hl
    have hactive : (s.adopt x).Active this := by
      rw [State.adopt_eq]
      split <;> exact hthis
    have hkids : Function.update (Function.update kids this l) rootProc (x :: kids rootProc) this
        = l := by
      rw [Function.update_of_ne hroot, Function.update_self]
    obtain ⟨t, kids', hloop, hrest⟩ :=
      ih hadopt hactive hkids (Nat.lt_of_succ_lt_succ hfuel)
    refine ⟨t, kids', ?_, hrest⟩
    rw [hnext, State.reparentLoop, if_neg nofun, ← hloop]
    -- The next node was read before the links changed, and is the first that is left.
    have hleft := (hadopt.ring this hactive.1).next_head
    rw [hl, List.map_cons] at hring
    rw [← List.nil_append (Node.ptnode x :: _)] at hring
    have hread := hring.next_mem
    simp only [hkids] at hleft
    rw [hread, hleft]

/-! ## `exit` -/

/-- A process without children announces its exit and becomes a zombie. -/
theorem die {this q : ℕ} (h : Inv kids rank (some this) s) (hthis : s.Active this)
    (hroot : this ≠ rootProc) (hnil : kids this = []) (hq : s.parent this = some q) :
    Inv kids rank none ((s.setChildexit q (s.childexit q + 1)).setStatus this .zombie) := by
  have hqactive := h.alive this hthis.1 q hq
  have hqthis : q ≠ this := by
    rintro rfl
    exact absurd (h.rank_lt q hthis.1 q hroot hq) (lt_irrefl _)
  have hstatus {c : ℕ} (hc : c ≠ this) :
      Function.update s.status this .zombie c = s.status c := Function.update_of_ne hc _ _
  have hchild : this ∈ kids q := (h.mem_kids q hqactive.1 this).mpr ⟨hthis.1, hroot, hq⟩
  have hactive {c : ℕ} (hc : s.Active c) (hne : c ≠ this) :
      ((s.setChildexit q (s.childexit q + 1)).setStatus this .zombie).Active c :=
    ⟨hc.1, (hstatus hne).trans hc.2⟩
  exact {
    root := hactive h.root hroot.symm
    root_parent := h.root_parent
    nodup := h.nodup
    ring := h.ring
    mem_kids := h.mem_kids
    alive := fun c hc r hr => by
      refine hactive (h.alive c hc r hr) ?_
      rintro rfl
      have hcroot : c ≠ rootProc := by
        rintro rfl
        have hr : s.parent rootProc = some r := hr
        rw [h.root_parent] at hr
        exact hroot (Option.some_inj.mp hr).symm
      have := (h.mem_kids r hthis.1 c).mpr ⟨hc, hcroot, hr⟩
      rw [hnil] at this
      cases this
    orphan := fun c hc hc' => by
      have hct : c ≠ this := by
        rintro rfl
        have hc' : s.parent c = none := hc'
        rw [hq] at hc'
        cases hc'
      exact (hstatus hct).trans (h.orphan c hc hc')
    rank_lt := h.rank_lt
    rank_root := h.rank_root
    count := fun r hr hz _ => by
      change Function.update s.status this .zombie r ≠ .zombie at hz
      show Function.update s.childexit q (s.childexit q + 1) r = _
      have hrt : r ≠ this := by
        rintro rfl
        exact hz (Function.update_self ..)
      rw [hstatus hrt] at hz
      have hold := h.count r hr hz fun e => hrt (Option.some_inj.mp e).symm
      have hother {c : ℕ} (hc : c ≠ this) :
          State.isZombie ((s.setChildexit q (s.childexit q + 1)).setStatus this .zombie) c =
            s.isZombie c := by
        show decide (Function.update s.status this .zombie c = .zombie) = _
        rw [hstatus hc]
        rfl
      by_cases hrq : r = q
      · subst hrq
        rw [Function.update_self, hold]
        refine (countP_succ (h.nodup_kids hr) hchild ?_ ?_ fun c hc => hother hc).symm
        · unfold State.isZombie
          rw [hthis.2]
          rfl
        · show decide (Function.update s.status this .zombie this = .zombie) = true
          rw [Function.update_self]
          rfl
      · rw [Function.update_of_ne hrq, hold]
        refine List.countP_congr fun c hc => ?_
        have hct : c ≠ this := by
          rintro rfl
          exact hrq (h.kids_unique hr hqactive.1 hc hchild)
        rw [hother hct] }

/-- The counter of the process that exits need not be right meanwhile. -/
theorem exempt (h : Inv kids rank none s) (this : ℕ) : Inv kids rank (some this) s :=
  { h with count := fun r hr hz _ => h.count r hr hz nofun }

/-- The children of a process are processes, and none comes twice. -/
theorem length_kids (h : Inv kids rank ex s) (hp : p ∈ s.procs) :
    (kids p).length ≤ s.procs.length :=
  ((h.nodup_kids hp).subperm fun c hc => ((h.mem_kids p hp c).mp hc).1).length_le

/-- `exit` comes to its end and keeps the invariant. -/
theorem exit (h : Inv kids rank none s) {this : ℕ} (hthis : s.Active this)
    (hroot : this ≠ rootProc) :
    ∃ t kids', s.exit this = some t ∧ Inv kids' rank none t := by
  have hfuel : (kids this).length < s.procs.length + 1 :=
    Nat.lt_succ_of_le (h.length_kids hthis.1)
  obtain ⟨t, kids', hloop, ht, hnil, hactive⟩ :=
    (h.exempt this).reparentLoop hthis hroot rfl hfuel
  have hreparent : s.reparent this = some t := hloop
  cases hq : t.parent this with
  | none =>
    have := ht.orphan this hactive.1 hq
    rw [hactive.2] at this
    cases this
  | some q =>
    refine ⟨_, kids', ?_, ht.die hactive hroot hnil hq⟩
    simp only [State.exit, hreparent, Option.bind_eq_bind, Option.bind_some, hq]
    rfl

/-! ## `wait` -/

/-- A zombie is detached and freed, and its unit consumed. -/
theorem reap {this : ℕ} (h : Inv kids rank none s) (hthis : s.Active this) {l₁ l₂ : List ℕ}
    (hkids : kids this = l₁ ++ x :: l₂) (hx : s.status x = .zombie) :
    Inv (Function.update kids this (l₁ ++ l₂)) rank none
      { (s.setChildexit this (s.childexit this - 1)).detach x with procs := s.procs.erase x } := by
  have hmem : x ∈ kids this := by
    rw [hkids]
    exact List.mem_append_right _ List.mem_cons_self
  obtain ⟨hxmem, hxroot, hxparent⟩ := (h.mem_kids this hthis.1 x).mp hmem
  have hne {c : ℕ} (hc : s.Active c) : c ≠ x := by
    rintro rfl
    rw [hc.2] at hx
    cases hx
  have hprocs {c : ℕ} : c ∈ s.procs.erase x ↔ c ≠ x ∧ c ∈ s.procs := h.nodup.mem_erase_iff
  have hnot : x ∉ l₁ ++ l₂ := by
    have := h.nodup_kids hthis.1
    rw [hkids] at this
    exact (List.nodup_cons.mp (List.perm_middle.nodup_iff.mp this)).1
  have hactive {c : ℕ} (hc : s.Active c) :
      State.Active { (s.setChildexit this (s.childexit this - 1)).detach x with
        procs := s.procs.erase x } c :=
    ⟨hprocs.mpr ⟨hne hc, hc.1⟩, hc.2⟩
  have hnode : Node.ptnode x ∈ (kids this).map Node.ptnode := List.mem_map_of_mem hmem
  exact {
    root := hactive h.root
    root_parent := h.root_parent
    nodup := h.nodup.erase x
    ring := fun r hr => by
      obtain ⟨hrx, hrs⟩ := hprocs.mp hr
      show Ring (s.links.detach (.ptnode x)) _ _
      by_cases hrt : r = this
      · subst hrt
        have hold := h.ring r hrs
        rw [hkids, List.map_append, List.map_cons] at hold
        rw [Function.update_self, List.map_append]
        exact hold.detach
      · rw [Function.update_of_ne hrt]
        refine (h.ring this hthis.1).detach_other hnode (h.ring r hrs) (ptnode_not_mem ?_)
        exact fun hxr => hrt (h.kids_unique hrs hthis.1 hxr hmem)
    mem_kids := fun r hr c => by
      obtain ⟨hrx, hrs⟩ := hprocs.mp hr
      show _ ↔ c ∈ s.procs.erase x ∧ _
      have hold := h.mem_kids r hrs c
      rw [hprocs]
      by_cases hrt : r = this
      · subst hrt
        rw [Function.update_self]
        constructor
        · intro hc
          have hcx : c ≠ x := by
            rintro rfl
            exact hnot hc
          have hck : c ∈ kids r := by
            rw [hkids]
            exact List.perm_middle.symm.subset (List.mem_cons_of_mem x hc)
          obtain ⟨h1, h2, h3⟩ := hold.mp hck
          exact ⟨⟨hcx, h1⟩, h2, h3⟩
        · rintro ⟨⟨hcx, h1⟩, h2, h3⟩
          have hck := hold.mpr ⟨h1, h2, h3⟩
          rw [hkids] at hck
          exact (List.mem_cons.mp (List.perm_middle.subset hck)).resolve_left hcx
      · rw [Function.update_of_ne hrt]
        constructor
        · intro hc
          have hcx : c ≠ x := by
            rintro rfl
            exact hrt (h.kids_unique hrs hthis.1 hc hmem)
          obtain ⟨h1, h2, h3⟩ := hold.mp hc
          exact ⟨⟨hcx, h1⟩, h2, h3⟩
        · rintro ⟨⟨hcx, h1⟩, h2, h3⟩
          exact hold.mpr ⟨h1, h2, h3⟩
    alive := fun c hc r hr => hactive (h.alive c (hprocs.mp hc).2 r hr)
    orphan := fun c hc hc' => h.orphan c (hprocs.mp hc).2 hc'
    rank_lt := fun c hc => h.rank_lt c (hprocs.mp hc).2
    rank_root := h.rank_root
    count := fun r hr hz hex => by
      obtain ⟨hrx, hrs⟩ := hprocs.mp hr
      have hold := h.count r hrs hz hex
      show Function.update s.childexit this (s.childexit this - 1) r = List.countP s.isZombie _
      by_cases hrt : r = this
      · subst hrt
        have hxz : s.isZombie x = true := decide_eq_true hx
        rw [hkids, List.countP_append, List.countP_cons_of_pos hxz] at hold
        rw [Function.update_self, Function.update_self, List.countP_append, hold]
        omega
      · rw [Function.update_of_ne hrt, Function.update_of_ne hrt]
        exact hold }

/-- The loop of `wait` from the child after `l₁` on: it reaps the first zombie. -/
theorem waitLoop {this : ℕ} (h : Ring s.links (.children this) ((kids this).map .ptnode))
    {l₁ l : List ℕ} {fuel : ℕ} (hkids : kids this = l₁ ++ l) (hfuel : l.length < fuel)
    (hzombie : ∃ c ∈ l, s.status c = .zombie) :
    ∃ l₂ x l₃, kids this = l₂ ++ x :: l₃ ∧ s.status x = .zombie ∧
      State.waitLoop this fuel ((l.map Node.ptnode ++ [Node.children this]).head (by simp)) s =
        some { s.detach x with procs := s.procs.erase x } := by
  induction l generalizing l₁ fuel with
  | nil =>
    obtain ⟨c, hc, -⟩ := hzombie
    cases hc
  | cons x l ih =>
    obtain ⟨fuel, rfl⟩ := Nat.exists_eq_add_one_of_ne_zero (Nat.ne_zero_of_lt hfuel)
    by_cases hx : s.status x = .zombie
    · refine ⟨l₁, x, l, hkids, hx, ?_⟩
      show State.waitLoop this (fuel + 1) (.ptnode x) s = _
      rw [State.waitLoop, if_neg nofun, if_pos hx]
    · have hrest : ∃ c ∈ l, s.status c = .zombie := by
        obtain ⟨c, hc, hcz⟩ := hzombie
        rcases List.mem_cons.mp hc with rfl | hc
        · exact absurd hcz hx
        · exact ⟨c, hc, hcz⟩
      obtain ⟨l₂, y, l₃, hy, hyz, hloop⟩ := @ih (l₁ ++ [x]) fuel
        (by rw [hkids, List.append_assoc]; rfl) (Nat.lt_of_succ_lt_succ hfuel) hrest
      refine ⟨l₂, y, l₃, hy, hyz, ?_⟩
      show State.waitLoop this (fuel + 1) (.ptnode x) s = _
      rw [hkids, List.map_append, List.map_cons] at h
      rw [State.waitLoop, if_neg nofun, if_neg hx, h.next_mem]
      exact hloop

/-- With children and a unit of `childexit`, `wait` comes to its end and reaps a zombie. -/
theorem wait_returns (h : Inv kids rank none s) {this : ℕ} (hthis : s.Active this)
    (hempty : s.links.next (.children this) ≠ .children this) (hunit : s.childexit this ≠ 0) :
    ∃ t x kids', s.wait this = some t ∧ x ∈ kids this ∧ s.status x = .zombie ∧
      t.procs = s.procs.erase x ∧ Inv kids' rank none t := by
  have hring := h.ring this hthis.1
  have hcount := h.count this hthis.1 (by rw [hthis.2]; exact nofun) nofun
  have hzombie : ∃ c ∈ kids this, s.status c = .zombie := by
    obtain ⟨c, hc, hcz⟩ := List.countP_pos_iff.mp (Nat.pos_of_ne_zero (hcount ▸ hunit))
    exact ⟨c, hc, of_decide_eq_true hcz⟩
  have hfuel : (kids this).length < s.procs.length + 1 :=
    Nat.lt_succ_of_le (h.length_kids hthis.1)
  obtain ⟨l₂, x, l₃, hx, hxz, hloop⟩ :=
    @waitLoop kids (s.setChildexit this (s.childexit this - 1)) this hring [] (kids this) _ rfl
      hfuel hzombie
  rw [← hring.next_head] at hloop
  refine ⟨_, x, _, ?_, ?_, hxz, rfl, h.reap hthis hx hxz⟩
  · rw [State.wait, if_neg hempty, if_neg hunit]
    exact hloop
  · rw [hx]
    exact List.mem_append_right _ List.mem_cons_self

theorem wait (h : Inv kids rank none s) {this : ℕ} (hthis : s.Active this)
    (hs : s.wait this = some t) : ∃ kids', Inv kids' rank none t := by
  by_cases hempty : s.links.next (.children this) = .children this
  · rw [State.wait, if_pos hempty] at hs
    cases hs
    exact ⟨kids, h⟩
  · by_cases hunit : s.childexit this = 0
    · rw [State.wait, if_neg hempty, if_pos hunit] at hs
      cases hs
    · obtain ⟨t', x, kids', hwait, -, -, -, ht⟩ := h.wait_returns hthis hempty hunit
      rw [hwait] at hs
      cases hs
      exact ⟨kids', ht⟩

/-! ## Calls -/

/-- A call keeps the invariant. -/
theorem step (h : Inv kids rank none s) {a : Action} (hs : next s a = some t) :
    ∃ kids' rank', Inv kids' rank' none t := by
  cases a with
  | create p pid =>
    simp only [next, State.createProc] at hs
    split_ifs at hs with hp
    cases hs
    exact ⟨_, _, h.create hp pid⟩
  | setParent this p =>
    simp only [next, State.setParentToThis] at hs
    split_ifs at hs with hthis
    split at hs
    · next hnone =>
      cases hs
      exact ⟨_, _, h.attach hthis.2 hnone hthis.1⟩
    · cases hs
  | start p =>
    simp only [next] at hs
    split_ifs at hs with hp
    cases hs
    exact h.startProc hp
  | fork this p pid =>
    simp only [next] at hs
    split_ifs at hs with hthis
    exact h.fork hthis hs
  | exit this =>
    simp only [next] at hs
    split_ifs at hs with hthis
    obtain ⟨t', kids', hexit, ht⟩ := h.exit hthis.1 hthis.2
    rw [hexit] at hs
    cases hs
    exact ⟨kids', rank, ht⟩
  | wait this =>
    simp only [next] at hs
    split_ifs at hs with hthis
    obtain ⟨kids', ht⟩ := h.wait hthis hs
    exact ⟨kids', rank, ht⟩

/-- The invariant holds after every sequence of calls. -/
theorem run (hrun : Run next anyStep ProcTree.start s) :
    ∃ kids rank, Inv kids rank none s :=
  hrun.invariant (I := fun s => ∃ kids rank, Inv kids rank none s) ⟨_, _, Inv.start⟩
    fun _ _ _ ⟨_, _, h⟩ _ hs => h.step hs

end Inv

end ShikiOS.Kernel.ProcTree
