import ShikiOS.Kernel.ProcTree

/-!
# Walks over the process tree (`kernel/proc.c`)

`dfs` prints every process that it visits, `dfs_kill` stops at the first with the pid that it
looks for. Both follow the links of the children lists, so both could run forever.

Results:
* `process_tree`: after every sequence of calls the children lists form a tree, each counts
  its zombies, and both walks visit every process of the tree once.
* `exited_keeps_units`: the counter of a process that has exited keeps the units of zombies
  that now belong to the root.
-/

namespace ShikiOS.Kernel.ProcTree

open ShikiOS.Lib

/-! ## The walks -/

mutual

/-- The common shape of `dfs` and `dfs_kill`: the processes that are visited from `p` on, and
    the one at which the walk stops; `none` without fuel. -/
def walk (s : State) (stop : ℕ → Bool) : ℕ → ℕ → Option (List ℕ × Option ℕ)
  | 0, _ => none
  | fuel + 1, p =>
    if stop p then some ([p], some p)
    else (walkList s stop (.children p) fuel (s.links.next (.children p))).map
      fun (v, k) => (p :: v, k)

/-- The loop over a children list from the node `c` on. -/
def walkList (s : State) (stop : ℕ → Bool) (head : Node) : ℕ → Node → Option (List ℕ × Option ℕ)
  | 0, _ => none
  | fuel + 1, c =>
    if c = head then some ([], none)
    else match c with
    | .ptnode q =>
      match walk s stop fuel q with
      | none => none
      | some (v, some k) => some (v, some k)
      | some (v, none) =>
        (walkList s stop head fuel (s.links.next c)).map fun (w, k) => (v ++ w, k)
    | .children _ => none

end

/-- `dfs` (proc.c:411-423): the processes that are printed. -/
def dfs (s : State) (fuel p : ℕ) : Option (List ℕ) := (walk s (fun _ => false) fuel p).map Prod.fst

/-- `dfs_kill` (proc.c:274-290): the processes that are visited, and the one that is killed. -/
def dfsKill (s : State) (pid : ℤ) (fuel p : ℕ) : Option (List ℕ × Option ℕ) :=
  walk s (fun q => s.pid q = pid ∧ s.status q ≠ .unused) fuel p

/-! ## The order of the tree -/

/-- The processes below `p`, down to a depth of `n`, parents first. -/
def preorder (kids : ℕ → List ℕ) : ℕ → ℕ → List ℕ
  | 0, _ => []
  | n + 1, p => p :: (kids p).flatMap (preorder kids n)

/-- The process is in the tree. -/
def State.Attached (s : State) (p : ℕ) : Prop := p ∈ s.procs ∧ s.parent p ≠ none

variable {kids : ℕ → List ℕ} {rank : ℕ → ℕ} {ex : Option ℕ} {s : State} {p q x c : ℕ} {n : ℕ}

theorem mem_preorder_succ :
    x ∈ preorder kids (n + 1) p ↔ x = p ∨ ∃ c ∈ kids p, x ∈ preorder kids n c := by
  rw [preorder, List.mem_cons, List.mem_flatMap]

/-- A child of a visited process is visited one level below. -/
theorem preorder_child (hq : q ∈ preorder kids n p) (hc : c ∈ kids q) :
    c ∈ preorder kids (n + 1) p := by
  induction n generalizing p with
  | zero => cases hq
  | succ n ih =>
    rcases mem_preorder_succ.mp hq with rfl | ⟨r, hr, hqr⟩
    · exact mem_preorder_succ.mpr (.inr ⟨c, hc, mem_preorder_succ.mpr (.inl rfl)⟩)
    · exact mem_preorder_succ.mpr (.inr ⟨r, hr, ih hqr⟩)

theorem preorder_mono (hx : x ∈ preorder kids n p) : x ∈ preorder kids (n + 1) p := by
  induction n generalizing p with
  | zero => cases hx
  | succ n ih =>
    rcases mem_preorder_succ.mp hx with rfl | ⟨r, hr, hxr⟩
    · exact mem_preorder_succ.mpr (.inl rfl)
    · exact mem_preorder_succ.mpr (.inr ⟨r, hr, ih hxr⟩)

theorem preorder_le {m : ℕ} (hnm : n ≤ m) (hx : x ∈ preorder kids n p) :
    x ∈ preorder kids m p := by
  induction m, hnm using Nat.le_induction with
  | base => exact hx
  | succ m _ ih => exact preorder_mono ih

namespace Inv

/-- What is visited below `p` but `p` itself has its parent there. -/
theorem parent_mem (h : Inv kids rank ex s) (hp : p ∈ s.procs) (hx : x ∈ preorder kids n p) :
    x ∈ s.procs ∧ (x = p ∨ x ≠ rootProc ∧
      ∃ y, s.parent x = some y ∧ y ∈ preorder kids n p ∧ rank p ≤ rank y) := by
  induction n generalizing p with
  | zero => cases hx
  | succ n ih =>
    rcases mem_preorder_succ.mp hx with rfl | ⟨c, hc, hxc⟩
    · exact ⟨hp, .inl rfl⟩
    · obtain ⟨hcmem, hcroot, hcp⟩ := (h.mem_kids p hp c).mp hc
      obtain ⟨hxmem, hxc' | ⟨hxroot, y, hy, hyc, hle⟩⟩ := ih hcmem hxc
      · subst hxc'
        exact ⟨hxmem, .inr ⟨hcroot, p, hcp, mem_preorder_succ.mpr (.inl rfl), le_rfl⟩⟩
      · have hlt := h.rank_lt c hcmem p hcroot hcp
        exact ⟨hxmem, .inr ⟨hxroot, y, hy, mem_preorder_succ.mpr (.inr ⟨c, hc, hyc⟩), by omega⟩⟩

/-- The rank grows downwards. -/
theorem rank_le (h : Inv kids rank ex s) (hp : p ∈ s.procs) (hx : x ∈ preorder kids n p) :
    rank p ≤ rank x := by
  obtain ⟨hxmem, rfl | ⟨hxroot, y, hy, -, hle⟩⟩ := h.parent_mem hp hx
  · exact le_rfl
  · have := h.rank_lt x hxmem y hxroot hy
    omega

/-- Different children of a process have nothing in common. -/
theorem disjoint_kids (h : Inv kids rank ex s) {c' : ℕ} (hp : p ∈ s.procs) (hc : c ∈ kids p)
    (hc' : c' ∈ kids p) (hne : c ≠ c') {m : ℕ} :
    ∀ x, x ∈ preorder kids n c → x ∉ preorder kids m c' := by
  intro x
  obtain ⟨hcmem, hcroot, hcp⟩ := (h.mem_kids p hp c).mp hc
  obtain ⟨hcmem', hcroot', hcp'⟩ := (h.mem_kids p hp c').mp hc'
  -- The process itself would be below its own child.
  have hnot {d e k : ℕ} (hd : d ∈ s.procs) (hdp : s.parent d = some p) (hd0 : d ≠ rootProc)
      (he : e ∈ s.procs) (hep : s.parent e = some p) (he0 : e ≠ rootProc) (hde : d ≠ e) :
      d ∉ preorder kids k e := by
    intro hmem
    obtain ⟨-, hde' | ⟨-, y, hy, -, hle⟩⟩ := h.parent_mem he hmem
    · exact hde hde'
    · have := h.rank_lt e he p he0 hep
      rw [hdp] at hy
      cases hy
      omega
  induction hr : rank x using Nat.strong_induction_on generalizing x with
  | _ r ih =>
    intro hx hx'
    obtain ⟨hxmem, hxc | ⟨hxroot, y, hy, hyc, -⟩⟩ := h.parent_mem hcmem hx
    · subst hxc
      exact hnot hcmem hcp hcroot hcmem' hcp' hcroot' hne hx'
    · obtain ⟨-, hxc' | ⟨-, y', hy', hyc', -⟩⟩ := h.parent_mem hcmem' hx'
      · subst hxc'
        exact hnot hcmem' hcp' hcroot' hcmem hcp hcroot hne.symm hx
      · rw [hy] at hy'
        cases hy'
        have hlt := h.rank_lt x hxmem y hxroot hy
        exact ih (rank y) (by omega) y rfl hyc hyc'

theorem nodup_preorder (h : Inv kids rank ex s) (hp : p ∈ s.procs) (n : ℕ) :
    (preorder kids n p).Nodup := by
  induction n generalizing p with
  | zero => exact List.nodup_nil
  | succ n ih =>
    refine List.nodup_cons.mpr ⟨fun hmem => ?_, List.nodup_flatMap.mpr ⟨fun c hc => ?_, ?_⟩⟩
    · obtain ⟨c, hc, hpc⟩ := List.mem_flatMap.mp hmem
      obtain ⟨hcmem, hcroot, hcp⟩ := (h.mem_kids p hp c).mp hc
      have hle := h.rank_le hcmem hpc
      have hlt := h.rank_lt c hcmem p hcroot hcp
      omega
    · exact ih ((h.mem_kids p hp c).mp hc).1
    · refine (h.nodup_kids hp).pairwise_of_forall_ne fun c hc c' hc' hne => ?_
      exact fun x hx hx' => h.disjoint_kids hp hc hc' hne x hx hx'

/-- Everything that has a parent is below the root. -/
theorem mem_preorder_root (h : Inv kids rank ex s) (hx : s.Attached x) :
    x ∈ preorder kids (rank x + 1) rootProc := by
  induction hr : rank x using Nat.strong_induction_on generalizing x with
  | _ r ih =>
    by_cases hroot : x = rootProc
    · exact mem_preorder_succ.mpr (.inl hroot)
    · obtain ⟨y, hy⟩ := Option.ne_none_iff_exists'.mp hx.2
      have hlt := h.rank_lt x hx.1 y hroot hy
      have hactive := h.alive x hx.1 y hy
      have hyatt : s.Attached y := by
        refine ⟨hactive.1, fun hnone => ?_⟩
        have := h.orphan y hactive.1 hnone
        rw [hactive.2] at this
        cases this
      have hyroot := ih (rank y) (by omega) hyatt rfl
      exact preorder_le (by omega) (preorder_child hyroot ((h.mem_kids y hactive.1 x).mpr
        ⟨hx.1, hroot, hy⟩))

/-- What is below the root has a parent. -/
theorem attached_of_mem (h : Inv kids rank ex s) (hx : x ∈ preorder kids n rootProc) :
    s.Attached x := by
  obtain ⟨hmem, rfl | ⟨-, y, hy, -, -⟩⟩ := h.parent_mem h.root.1 hx
  · exact ⟨hmem, by rw [h.root_parent]; exact Option.some_ne_none _⟩
  · exact ⟨hmem, by rw [hy]; exact Option.some_ne_none _⟩

end Inv

/-! ## What the walks visit -/

/-- The part of a list that a walk sees: all of it, or up to the first at which it stops. -/
def upto (stop : ℕ → Bool) : List ℕ → List ℕ
  | [] => []
  | p :: l => if stop p then [p] else p :: upto stop l

variable {stop : ℕ → Bool} {l l' : List ℕ}

theorem upto_append (hnone : l.find? stop = none) : upto stop (l ++ l') = l ++ upto stop l' := by
  induction l with
  | nil => rfl
  | cons p l ih =>
    rw [List.find?_cons] at hnone
    cases hp : stop p with
    | true =>
      rw [hp] at hnone
      cases hnone
    | false =>
      rw [hp] at hnone
      rw [List.cons_append, upto, hp, if_neg Bool.false_ne_true, ih hnone, List.cons_append]

theorem upto_append_of_some {k : ℕ} (hsome : l.find? stop = some k) :
    upto stop (l ++ l') = upto stop l := by
  induction l with
  | nil => cases hsome
  | cons p l ih =>
    rw [List.find?_cons] at hsome
    rw [List.cons_append, upto, upto]
    cases hp : stop p with
    | true => rfl
    | false =>
      rw [hp] at hsome
      rw [if_neg Bool.false_ne_true, if_neg Bool.false_ne_true, ih hsome]

theorem upto_all (hnone : l.find? stop = none) : upto stop l = l := by
  have happend : upto stop (l ++ []) = l ++ upto stop [] := upto_append hnone
  rwa [List.append_nil, upto, List.append_nil] at happend

/-- A walk over a part of a children list, whose members are walked in full. -/
theorem walkList_spec (h : Ring s.links (.children p) ((kids p).map .ptnode)) {l₁ : List ℕ}
    (hkids : kids p = l₁ ++ l)
    (hwalk : ∀ c ∈ l, ∃ f₀, ∀ f, f₀ ≤ f → walk s stop f c =
      some (upto stop (preorder kids n c), (preorder kids n c).find? stop)) :
    ∃ f₀, ∀ f, f₀ ≤ f → walkList s stop (.children p) f
        ((l.map Node.ptnode ++ [Node.children p]).head (by simp)) =
      some (upto stop (l.flatMap (preorder kids n)), (l.flatMap (preorder kids n)).find? stop) := by
  induction l generalizing l₁ with
  | nil =>
    refine ⟨1, fun f hf => ?_⟩
    obtain ⟨f, rfl⟩ := Nat.exists_eq_add_one_of_ne_zero (Nat.ne_zero_of_lt hf)
    show walkList s stop (.children p) (f + 1) (.children p) = _
    rw [walkList, if_pos rfl]
    rfl
  | cons c l ih =>
    obtain ⟨f₁, hc⟩ := hwalk c List.mem_cons_self
    obtain ⟨f₂, hl⟩ := @ih (l₁ ++ [c]) (by rw [hkids, List.append_assoc]; rfl)
      fun d hd => hwalk d (List.mem_cons_of_mem c hd)
    refine ⟨max f₁ f₂ + 1, fun f hf => ?_⟩
    obtain ⟨f, rfl⟩ := Nat.exists_eq_add_one_of_ne_zero (Nat.ne_zero_of_lt hf)
    rw [hkids, List.map_append, List.map_cons] at h
    show walkList s stop (.children p) (f + 1) (.ptnode c) = _
    rw [walkList, if_neg nofun, hc f (by omega), List.flatMap_cons, List.find?_append, h.next_mem,
      hl f (by omega)]
    cases hfind : (preorder kids n c).find? stop with
    | none =>
      rw [upto_append hfind, upto_all hfind]
      rfl
    | some k =>
      rw [upto_append_of_some hfind]
      rfl

/-- The walk from a process: `N` bounds the ranks, so `n` is depth enough. -/
theorem Inv.walk_spec (h : Inv kids rank ex s) (stop : ℕ → Bool) {N : ℕ}
    (hN : ∀ c ∈ s.procs, rank c < N) (hp : p ∈ s.procs) (hn : N ≤ rank p + n) :
    ∃ f₀, ∀ f, f₀ ≤ f → walk s stop f p =
      some (upto stop (preorder kids n p), (preorder kids n p).find? stop) := by
  induction n generalizing p with
  | zero =>
    have := hN p hp
    omega
  | succ n ih =>
    obtain ⟨f₀, hlist⟩ := walkList_spec (h.ring p hp) (List.nil_append _).symm fun c hc => by
      obtain ⟨hcmem, hcroot, hcp⟩ := (h.mem_kids p hp c).mp hc
      have hlt := h.rank_lt c hcmem p hcroot hcp
      exact ih hcmem (by omega)
    refine ⟨f₀ + 1, fun f hf => ?_⟩
    obtain ⟨f, rfl⟩ := Nat.exists_eq_add_one_of_ne_zero (Nat.ne_zero_of_lt hf)
    rw [walk, preorder, upto, List.find?_cons]
    cases hstop : stop p with
    | true => rfl
    | false =>
      rw [if_neg Bool.false_ne_true, if_neg Bool.false_ne_true, (h.ring p hp).next_head,
        hlist f (by omega)]
      rfl

/-- A walk from the root sees the processes of the tree in one order. -/
theorem Inv.walk_root (h : Inv kids rank ex s) :
    ∃ order : List ℕ, order.Nodup ∧ (∀ x, x ∈ order ↔ s.Attached x) ∧
      ∀ stop, ∃ f₀, ∀ f, f₀ ≤ f →
        walk s stop f rootProc = some (upto stop order, order.find? stop) := by
  obtain ⟨N, hN⟩ : ∃ N, ∀ c ∈ s.procs, rank c < N := by
    refine ⟨(s.procs.map rank).sum + 1, fun c hc => Nat.lt_succ_of_le ?_⟩
    exact List.single_le_sum (fun _ _ => Nat.zero_le _) _ (List.mem_map_of_mem hc)
  refine ⟨preorder kids N rootProc, h.nodup_preorder h.root.1 N, fun x => ?_, fun stop => ?_⟩
  · refine ⟨h.attached_of_mem, fun hx => ?_⟩
    exact preorder_le (hN x hx.1) (h.mem_preorder_root hx)
  · exact h.walk_spec stop hN h.root.1 (Nat.le_add_left N _)

/-! ## The property -/

/-- The children lists form a tree of the processes that were started and not reaped (and of
    those that have got a parent before they are started). -/
structure WellFormed (s : State) : Prop where
  /-- The children lists are circular, without repetitions and without reaped processes. -/
  lists : ∃ kids : ℕ → List ℕ, (∀ p ∈ s.procs,
    Ring s.links (.children p) ((kids p).map .ptnode) ∧ (∀ c ∈ kids p, c ∈ s.procs) ∧
      (s.status p ≠ .zombie → s.childexit p = (kids p).countP s.isZombie)) ∧
    ∀ c ∈ s.procs, c ≠ rootProc → s.status c ≠ .unused →
      ∃ p ∈ s.procs, s.parent c = some p ∧ ∀ q ∈ s.procs, c ∈ kids q ↔ q = p
  /-- Both walks come to their end and visit every process of the tree once. -/
  walks : ∃ order : List ℕ, order.Nodup ∧ (∀ x, x ∈ order ↔ s.Attached x) ∧
    ∃ fuel, dfs s fuel rootProc = some order ∧
      ∀ pid, ∃ fuel, dfsKill s pid fuel rootProc =
        some (upto (fun q => s.pid q = pid ∧ s.status q ≠ .unused) order,
          order.find? fun q => s.pid q = pid ∧ s.status q ≠ .unused)

theorem Inv.wellFormed (h : Inv kids rank none s) : WellFormed s where
  lists := by
    refine ⟨kids, fun p hp => ⟨h.ring p hp, fun c hc => ((h.mem_kids p hp c).mp hc).1,
      fun hz => h.count p hp hz nofun⟩, fun c hc hroot hused => ?_⟩
    obtain ⟨p, hparent⟩ := Option.ne_none_iff_exists'.mp fun hnone => hused (h.orphan c hc hnone)
    refine ⟨p, (h.alive c hc p hparent).1, hparent, fun q hq => ?_⟩
    rw [h.mem_kids q hq c, hparent, Option.some_inj]
    exact ⟨fun hmem => hmem.2.2.symm, fun heq => ⟨hc, hroot, heq.symm⟩⟩
  walks := by
    obtain ⟨order, hnd, hmem, hwalk⟩ := h.walk_root
    obtain ⟨f₀, hf₀⟩ := hwalk fun _ => false
    refine ⟨order, hnd, hmem, f₀, ?_, fun pid => ?_⟩
    · have hnone : order.find? (fun _ => false) = none :=
        List.find?_eq_none.mpr fun _ _ => Bool.false_ne_true
      rw [dfs, hf₀ f₀ le_rfl, Option.map_some, upto_all hnone]
    · obtain ⟨f₁, hf₁⟩ := hwalk fun q => s.pid q = pid ∧ s.status q ≠ .unused
      exact ⟨f₁, hf₁ f₁ le_rfl⟩

/-- After every sequence of calls the children lists form a tree: each process that was
    started and not reaped is in the list of its parent and in no other, the counter of a
    process that has not exited is the number of zombies in its list, and `dfs` and `dfs_kill`
    end after they have visited each process of the tree once. -/
theorem process_tree (s : State) (hrun : Run next anyStep start s) : WellFormed s := by
  obtain ⟨kids, rank, h⟩ := Inv.run hrun
  exact h.wellFormed

/-- A child forks a child; both exit, and the root reaps the grandchild. -/
theorem process_tree_adopted : ∃ s, Run next anyStep start s ∧ WellFormed s ∧
    s.procs = [1, 0] ∧ s.status 1 = .zombie ∧ s.childexit 0 = 1 := by
  have hexec : (exec next start
      [.fork 0 1 2, .fork 1 2 3, .exit 2, .exit 1, .wait 0]).map
        (fun s => (s.procs, s.status 1, s.childexit 0)) = some ([1, 0], .zombie, 1) := by
    decide +kernel
  obtain ⟨s, hs, hend⟩ := Option.map_eq_some_iff.mp hexec
  simp only [Prod.mk.injEq] at hend
  exact ⟨s, Run.of_exec hs, process_tree s (Run.of_exec hs), hend⟩

/-- The zombie of an exited process moves to the root, but the counter of the exited process
    keeps its unit. -/
theorem exited_keeps_units : ∃ s, Run next anyStep start s ∧ s.status 1 = .zombie ∧
    s.childexit 1 = 1 ∧ s.links.next (.children 1) = .children 1 ∧ s.parent 2 = some 0 := by
  have hexec : (exec next start [.fork 0 1 2, .fork 1 2 3, .exit 2, .exit 1]).map
      (fun s => (s.status 1, s.childexit 1, s.links.next (.children 1), s.parent 2)) =
        some (.zombie, 1, .children 1, some 0) := by
    decide +kernel
  obtain ⟨s, hs, hend⟩ := Option.map_eq_some_iff.mp hexec
  simp only [Prod.mk.injEq] at hend
  exact ⟨s, Run.of_exec hs, hend⟩

end ShikiOS.Kernel.ProcTree
