import ShikiOS.Lib.Ring

/-!
# Intrusive circular lists (`common/list.c`, `common/list.h`)

A `ListNode` has a link in each direction, and a list is a cycle of nodes: the run queue, the
process tree, the inode list, the block cache and the waiters of a semaphore are all kept so.
The nodes are of any type `α`; `NULL` is `none`. Each function is the sequence of its pointer
writes, where a write may hit a node that a later one reads.

Results:
* `mergeList_spec`, `insertIntoList_spec`, `detachFromList_spec`: what the functions do to the
  lists they are applied to and to all others.
* `listOps_wellFormed`: on a heap of well-formed lists every function leaves one.
* `forInList_eq`: the loop of `_for_in_list` meets every node once, the given one last.
-/

namespace ShikiOS.CircularList

open Lib Lib.Links

variable {α : Type*} [DecidableEq α] {L : Links α} {n n₁ n₂ h : α} {l l₁ l₂ : List α}
  {D : Finset α}

/-! ## Model -/

/-- `a->next = b`. -/
def setNext (L : Links α) (a b : α) : Links α := { L with next := Function.update L.next a b }

/-- `a->prev = b`. -/
def setPrev (L : Links α) (a b : α) : Links α := { L with prev := Function.update L.prev a b }

/-- `init_list_node` (list.c:3-7). -/
def initListNode (L : Links α) (node : α) : Links α := setNext (setPrev L node node) node node

/-- `_merge_list` (list.c:9-34): the links afterwards and the node that is returned. -/
def mergeList (L : Links α) : Option α → Option α → Links α × Option α
  | none, node2 => (L, node2)
  | some node1, none => (L, some node1)
  | some node1, some node2 =>
    let node3 := L.next node1
    let node4 := L.prev node2
    let L := setNext L node1 node2
    let L := setPrev L node2 node1
    let L := setNext L node4 node3
    let L := setPrev L node3 node4
    (L, some node1)

/-- `_insert_into_list` (list.h:21-22). -/
def insertIntoList (L : Links α) (list : Option α) (node : α) : Links α × Option α :=
  mergeList (initListNode L node) list (some node)

/-- `_detach_from_list` (list.c:36-47). -/
def detachFromList (L : Links α) (node : α) : Links α × Option α :=
  let prev := L.prev node
  let L := setNext L (L.prev node) (L.next node)
  let L := setPrev L (L.next node) (L.prev node)
  let L := initListNode L node
  (L, if prev = node then none else some prev)

/-- The nodes that the loop of `_for_in_list` (list.h:27-29) still meets from `valptr` on, in
    at most `fuel` rounds. -/
def forInListLoop (L : Links α) (flag : α) : ℕ → Option α → Option (List α)
  | _, none => some []
  | 0, some _ => none
  | fuel + 1, some valptr =>
    (forInListLoop L flag fuel (if valptr = flag then none else some (L.next valptr))).map
      (valptr :: ·)

/-- `_for_in_list` (list.h:27-29). -/
def forInList (L : Links α) (fuel : ℕ) (list : α) : Option (List α) :=
  forInListLoop L list fuel (some (L.next list))

/-! ## The functions and the operations on rings -/

theorem mergeList_eq (n₁ n₂ : α) :
    mergeList L (some n₁) (some n₂) = (L.merge n₁ n₂, some n₁) := rfl

theorem insertIntoList_eq (h n : α) :
    insertIntoList L (some h) n = (L.insert h n, some h) := rfl

theorem detachFromList_eq (n : α) :
    detachFromList L n = (L.detach n, if L.prev n = n then none else some (L.prev n)) := rfl

omit [DecidableEq α] in
/-- The node before `n` is `n` itself when it is alone. -/
theorem prev_eq_self_iff (hr : Ring L n l) : L.prev n = n ↔ l = [] := by
  rw [hr.prev_head]
  refine ⟨fun hlast => ?_, ?_⟩
  · by_contra hl
    rw [List.getLast_cons hl] at hlast
    exact (List.nodup_cons.mp hr.nodup).1 (hlast ▸ List.getLast_mem hl)
  · rintro rfl
    rfl

/-! ## The loop over a list -/

theorem forInListLoop_eq (hr : Ring L h (l₁ ++ l₂)) (fuel : ℕ) (hf : l₂.length < fuel) :
    forInListLoop L h fuel (some ((l₂ ++ [h]).head (by simp))) = some (l₂ ++ [h]) := by
  induction l₂ generalizing l₁ fuel with
  | nil =>
    obtain ⟨fuel, rfl⟩ := Nat.exists_eq_add_one_of_ne_zero (Nat.ne_of_gt hf)
    simp [forInListLoop]
  | cons c l₂ ih =>
    obtain ⟨fuel, rfl⟩ := Nat.exists_eq_add_one_of_ne_zero (Nat.ne_of_gt (Nat.zero_lt_of_lt hf))
    have hch : c ≠ h := by
      rintro rfl
      exact (List.nodup_cons.mp hr.nodup).1 (List.mem_append_right _ List.mem_cons_self)
    have hr' : Ring L h ((l₁ ++ [c]) ++ l₂) := by simpa using hr
    have hrest := ih hr' fuel (by simpa using hf)
    show Option.map _ (forInListLoop L h fuel (if c = h then none else some (L.next c))) = _
    rw [if_neg hch, hr.next_mem, hrest]
    rfl

/-- The loop meets the nodes behind `h` in order and then `h`. -/
theorem forInList_eq (hr : Ring L h l) (fuel : ℕ) (hf : l.length < fuel) :
    forInList L fuel h = some (l ++ [h]) := by
  have hr' : Ring L h ([] ++ l) := hr
  unfold forInList
  rw [hr.next_head]
  exact forInListLoop_eq hr' fuel hf

/-- The links determine the list of a node. -/
theorem ring_unique (hr₁ : Ring L n l₁) (hr₂ : Ring L n l₂) : l₁ = l₂ := by
  have h₁ := forInList_eq hr₁ (l₁.length + l₂.length + 1) (by omega)
  have h₂ := forInList_eq hr₂ (l₁.length + l₂.length + 1) (by omega)
  exact List.append_cancel_right (Option.some.inj (h₁.symm.trans h₂))

/-! ## What the functions do to the lists of a heap -/

/-- The lists with none of the nodes `S` are as before. -/
def KeepsOthers (L L' : Links α) (S : List α) : Prop :=
  ∀ h l, Ring L h l → (∀ a ∈ S, a ∉ h :: l) → Ring L' h l

/-- A heap stays well formed when the lists with nodes of `S`, and the nodes that come to it, are
    in lists afterwards. -/
theorem closed_of_keeps {L' : Links α} {D' : Finset α} {S : List α} (hL : L.Closed D)
    (hD : D ⊆ D') (hk : KeepsOthers L L' S)
    (hS : ∀ n ∈ D', (n ∉ D ∨ ∃ l, Ring L n l ∧ ∃ a ∈ S, a ∈ n :: l) →
      ∃ h l, Ring L' h l ∧ n ∈ h :: l ∧ ∀ a ∈ h :: l, a ∈ D') : L'.Closed D' := by
  refine Closed.of_rings fun n hn => ?_
  by_cases hnD : n ∈ D
  · obtain ⟨l, hr, _⟩ := hL.ring hnD
    by_cases hmem : ∃ a ∈ S, a ∈ n :: l
    · exact hS n hn (Or.inr ⟨l, hr, hmem⟩)
    · simp only [not_exists, not_and] at hmem
      exact ⟨n, l, hk n l hr hmem, List.mem_cons_self, fun a ha => hD (hr.subset hL hnD a ha)⟩
  · exact hS n hn (Or.inl hnD)

/-- `_merge_list` of nodes of two lists. -/
theorem mergeList_spec (hL : L.Closed D) (hn₁ : n₁ ∈ D) (hn₂ : n₂ ∈ D) (hr₁ : Ring L n₁ l₁)
    (hr₂ : Ring L n₂ l₂) (hn : n₂ ∉ n₁ :: l₁) :
    (mergeList L (some n₁) (some n₂)).2 = some n₁ ∧
      (mergeList L (some n₁) (some n₂)).1.Closed D ∧
      Ring (mergeList L (some n₁) (some n₂)).1 n₁ (n₂ :: l₂ ++ l₁) ∧
      KeepsOthers L (mergeList L (some n₁) (some n₂)).1 [n₁, n₂] := by
  rw [mergeList_eq]
  have hring : Ring (L.merge n₁ n₂) n₁ (n₂ :: l₂ ++ l₁) := hr₁.merge hr₂ hn
  have hkeep : KeepsOthers L (L.merge n₁ n₂) [n₁, n₂] := by
    intro h l hr hS
    exact hr₁.merge_other hr₂ hr (hS n₁ (by simp)) (hS n₂ (by simp))
  refine ⟨rfl, closed_of_keeps hL (Finset.Subset.refl D) hkeep fun n hn hcase => ?_, hring, hkeep⟩
  obtain hnD | ⟨l, hr, a, haS, ha⟩ := hcase
  · exact absurd hn hnD
  · have hsub₁ := hr₁.subset hL hn₁
    have hsub₂ := hr₂.subset hL hn₂
    have hmem : n ∈ n₁ :: l₁ ∨ n ∈ n₂ :: l₂ := by
      simp only [List.mem_cons, List.not_mem_nil, or_false] at haS
      rcases haS with rfl | rfl
      · exact Or.inl (hr.mem_comm hr₁ ha)
      · exact Or.inr (hr.mem_comm hr₂ ha)
    refine ⟨n₁, _, hring, ?_, ?_⟩
    · simp only [List.mem_cons, List.mem_append] at hmem ⊢
      tauto
    · intro b hb
      simp only [List.mem_cons, List.mem_append] at hb
      rcases hb with rfl | (rfl | hb) | hb
      · exact hn₁
      · exact hn₂
      · exact hsub₂ b (List.mem_cons_of_mem _ hb)
      · exact hsub₁ b (List.mem_cons_of_mem _ hb)

/-- `_insert_into_list` of a node that is in no list, or alone. -/
theorem insertIntoList_spec (hL : L.Closed D) (hh : h ∈ D) (hr : Ring L h l)
    (hn : n ∉ D ∨ Ring L n []) (hne : n ≠ h) :
    (insertIntoList L (some h) n).2 = some h ∧
      (insertIntoList L (some h) n).1.Closed (insert n D) ∧
      Ring (insertIntoList L (some h) n).1 h (n :: l) ∧
      KeepsOthers L (insertIntoList L (some h) n).1 [h, n] := by
  rw [insertIntoList_eq]
  have hsub := hr.subset hL hh
  have hnl : n ∉ h :: l := by
    intro hmem
    rcases hn with hn | hn
    · exact hn (hsub n hmem)
    · exact hne (List.mem_singleton.mp (hr.mem_comm hn hmem)).symm
  have hring : Ring (L.insert h n) h (n :: l) := hr.insert hnl
  have hkeep : KeepsOthers L (L.insert h n) [h, n] := by
    intro h' l' hr' hS
    exact hr.insert_other hr' hnl (hS n (by simp)) (hS h (by simp))
  refine ⟨rfl, closed_of_keeps hL (Finset.subset_insert n D) hkeep fun m hm hcase => ?_, hring,
    hkeep⟩
  have hmem : m ∈ h :: n :: l := by
    obtain hmD | ⟨l', hr', a, haS, ha⟩ := hcase
    · have hmn : m = n := (Finset.mem_insert.mp hm).resolve_right hmD
      simp [hmn]
    · simp only [List.mem_cons, List.not_mem_nil, or_false] at haS
      rcases haS with rfl | rfl
      · have := hr'.mem_comm hr ha
        simp only [List.mem_cons] at this ⊢
        tauto
      · rcases hn with hn | hn
        · -- a node outside of the heap is in no list of it
          have hmn : m = a := by
            rcases Finset.mem_insert.mp hm with hma | hmD
            · exact hma
            · exact absurd (hr'.subset hL hmD a ha) hn
          simp [hmn]
        · have hma := List.mem_singleton.mp (hr'.mem_comm hn ha)
          simp [hma]
  refine ⟨h, _, hring, hmem, ?_⟩
  intro b hb
  simp only [List.mem_cons] at hb
  rcases hb with rfl | rfl | hb
  · exact Finset.mem_insert_of_mem hh
  · exact Finset.mem_insert_self b D
  · exact Finset.mem_insert_of_mem (hsub b (List.mem_cons_of_mem _ hb))

/-- `_detach_from_list`. -/
theorem detachFromList_spec (hL : L.Closed D) (hn : n ∈ D) (hr : Ring L n l) :
    (detachFromList L n).2 = (if l = [] then none else some (L.prev n)) ∧
      (detachFromList L n).1.Closed D ∧ Ring (detachFromList L n).1 n [] ∧
      (∀ l₁ h l₂, l = l₁ ++ h :: l₂ → Ring (detachFromList L n).1 h (l₂ ++ l₁)) ∧
      (l = [] → (detachFromList L n).1 = L) ∧ KeepsOthers L (detachFromList L n).1 [n] := by
  rw [detachFromList_eq]
  have hrest : ∀ l₁ h l₂, l = l₁ ++ h :: l₂ → Ring (L.detach n) h (l₂ ++ l₁) := by
    rintro l₁ h l₂ rfl
    exact hr.rotate.detach
  have hkeep : KeepsOthers L (L.detach n) [n] := by
    intro h' l' hr' hS
    have hn' := hS n List.mem_cons_self
    cases l with
    | nil => exact hr.detach_single.symm ▸ hr'
    | cons h l =>
      have hsplit : Ring L n ([] ++ h :: l) := hr
      exact hsplit.rotate.detach_other (by simp) hr' hn'
  refine ⟨if_congr (prev_eq_self_iff hr) rfl rfl,
    closed_of_keeps hL (Finset.Subset.refl D) hkeep fun m hm hcase => ?_, ring_detach_self, hrest,
    ?_, hkeep⟩
  · obtain hmD | ⟨l', hr', a, haS, ha⟩ := hcase
    · exact absurd hm hmD
    · rw [List.mem_singleton] at haS
      subst haS
      rcases List.mem_cons.mp (hr'.mem_comm hr ha) with rfl | hml
      · refine ⟨m, [], ring_detach_self, List.mem_cons_self, fun b hb => ?_⟩
        exact List.mem_singleton.mp hb ▸ hm
      · obtain ⟨l₁, l₂, rfl⟩ := List.append_of_mem hml
        refine ⟨m, _, hrest l₁ m l₂ rfl, List.mem_cons_self, fun b hb => ?_⟩
        refine hr.subset hL hn b ?_
        simp only [List.mem_cons, List.mem_append] at hb ⊢
        tauto
  · rintro rfl
    exact hr.detach_single

/-- On a heap of well-formed circular lists, where every node has its list: the effect of the
    functions on the lists they are applied to, and that no other list changes. -/
theorem listOps_wellFormed (hL : L.Closed D) :
    (∀ n ∈ D, ∃! l, Ring L n l) ∧
    (∀ n₁ ∈ D, ∀ n₂ ∈ D, ∀ l₁ l₂, Ring L n₁ l₁ → Ring L n₂ l₂ → n₂ ∉ n₁ :: l₁ →
      (mergeList L (some n₁) (some n₂)).2 = some n₁ ∧
        (mergeList L (some n₁) (some n₂)).1.Closed D ∧
        Ring (mergeList L (some n₁) (some n₂)).1 n₁ (n₂ :: l₂ ++ l₁) ∧
        KeepsOthers L (mergeList L (some n₁) (some n₂)).1 [n₁, n₂]) ∧
    (∀ h ∈ D, ∀ l n, Ring L h l → (n ∉ D ∨ Ring L n []) → n ≠ h →
      (insertIntoList L (some h) n).2 = some h ∧
        (insertIntoList L (some h) n).1.Closed (insert n D) ∧
        Ring (insertIntoList L (some h) n).1 h (n :: l) ∧
        KeepsOthers L (insertIntoList L (some h) n).1 [h, n]) ∧
    (∀ n ∈ D, ∀ l, Ring L n l →
      (detachFromList L n).2 = (if l = [] then none else some (L.prev n)) ∧
        (detachFromList L n).1.Closed D ∧ Ring (detachFromList L n).1 n [] ∧
        (∀ l₁ h l₂, l = l₁ ++ h :: l₂ → Ring (detachFromList L n).1 h (l₂ ++ l₁)) ∧
        (l = [] → (detachFromList L n).1 = L) ∧ KeepsOthers L (detachFromList L n).1 [n]) := by
  refine ⟨fun n hn => ?_, ?_, ?_, ?_⟩
  · obtain ⟨l, hr, _⟩ := hL.ring hn
    exact ⟨l, hr, fun l' hr' => ring_unique hr' hr⟩
  · intro n₁ hn₁ n₂ hn₂ l₁ l₂ hr₁ hr₂ hn
    exact mergeList_spec hL hn₁ hn₂ hr₁ hr₂ hn
  · intro h hh l n hr hn hne
    exact insertIntoList_spec hL hh hr hn hne
  · intro n hn l hr
    exact detachFromList_spec hL hn hr

/-- A list of two nodes, one of three and a node of its own. -/
def sampleLinks : Links (Fin 6) := ⟨![1, 0, 3, 4, 2, 5], ![1, 0, 4, 2, 3, 5]⟩

theorem sampleLinks_closed : sampleLinks.Closed Finset.univ := by
  refine ⟨fun a _ => Finset.mem_univ _, fun a _ => Finset.mem_univ _, ?_, ?_⟩ <;> decide

theorem listOps_sampleLinks :
    sampleLinks.Closed Finset.univ ∧
      Ring (mergeList sampleLinks (some 1) (some 3)).1 1 [3, 4, 2, 0] ∧
      (detachFromList sampleLinks 5).1 = sampleLinks := by
  have hall := listOps_wellFormed sampleLinks_closed
  have hr₁ : Ring sampleLinks 1 [0] := ⟨by unfold Links.Link; decide, by decide⟩
  have hr₃ : Ring sampleLinks 3 [4, 2] := ⟨by unfold Links.Link; decide, by decide⟩
  have hr₅ : Ring sampleLinks 5 [] := ⟨by unfold Links.Link; decide, by decide⟩
  refine ⟨sampleLinks_closed, ?_, ?_⟩
  · exact (hall.2.1 1 (by simp) 3 (by simp) _ _ hr₁ hr₃ (by decide)).2.2.1
  · exact (hall.2.2.2 5 (by simp) _ hr₅).2.2.2.2.1 rfl

end ShikiOS.CircularList
