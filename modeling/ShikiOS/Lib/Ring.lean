import Mathlib.Tactic

/-!
# Circular lists

Nodes of any type with a link in each direction. `Ring L h l` says that the links lead from
`h` through the nodes of `l` back to `h`, and the same way back.

Results:
* `Ring.merge`, `Ring.merge_other`: two rings become one; what other rings keep.
* `Ring.insert`, `Ring.insert_other`: a node is put behind `h`.
* `Ring.detach`, `Ring.detach_other`: a node is taken out.
* `ring_init`, `Ring.init_other`: a node starts afresh.
* `Ring.next_head`, `Ring.next_mem`: where the links lead.
* `Links.Closed.ring`, `Links.Closed.of_rings`: on a finite set links are inverse to each other if
  and only if the set consists of rings.
-/

namespace ShikiOS.Lib

/-- The links of all nodes. -/
structure Links (α : Type*) where
  next : α → α
  prev : α → α

namespace Links

variable {α : Type*} [DecidableEq α]

/-- The node becomes a list of its own. -/
def init (L : Links α) (n : α) : Links α :=
  ⟨Function.update L.next n n, Function.update L.prev n n⟩

/-- The lists of two nodes become one, in which `n₂` follows `n₁`. -/
def merge (L : Links α) (n₁ n₂ : α) : Links α :=
  let n₃ := L.next n₁
  let n₄ := L.prev n₂
  ⟨Function.update (Function.update L.next n₁ n₂) n₄ n₃,
    Function.update (Function.update L.prev n₂ n₁) n₃ n₄⟩

/-- A single node goes behind `h`. -/
def insert (L : Links α) (h n : α) : Links α := (L.init n).merge h n

/-- The node leaves its list. -/
def detach (L : Links α) (n : α) : Links α :=
  let next := Function.update L.next (L.prev n) (L.next n)
  init ⟨next, Function.update L.prev (next n) (L.prev n)⟩ n

/-- `b` follows `a`. -/
def Link (L : Links α) (a b : α) : Prop := L.next a = b ∧ L.prev b = a

/-- On `D` the links stay in `D` and are inverse to each other. -/
structure Closed (L : Links α) (D : Finset α) : Prop where
  next_mem : ∀ a ∈ D, L.next a ∈ D
  prev_mem : ∀ a ∈ D, L.prev a ∈ D
  prev_next : ∀ a ∈ D, L.prev (L.next a) = a
  next_prev : ∀ a ∈ D, L.next (L.prev a) = a

end Links

open Links

/-- The nodes behind `h`, in order. -/
structure Ring {α : Type*} (L : Links α) (h : α) (l : List α) : Prop where
  links : (h :: l ++ [h]).IsChain L.Link
  nodup : (h :: l).Nodup

variable {α : Type*} {L : Links α} {h h' n n₁ n₂ a b c : α} {l l' l₁ l₂ : List α} {D : Finset α}

/-! ## Where the links lead -/

theorem Ring.chain (hr : Ring L h (l₁ ++ l₂)) : (l₂ ++ [h]).IsChain L.Link := by
  have hlinks := hr.links
  rw [List.cons_append, List.append_assoc, ← List.cons_append] at hlinks
  exact hlinks.right_of_append

theorem Ring.next_head (hr : Ring L h l) : L.next h = (l ++ [h]).head (by simp) := by
  cases l with
  | nil => exact (List.isChain_cons_cons.mp hr.links).1.1
  | cons c l => exact (List.isChain_cons_cons.mp hr.links).1.1

theorem Ring.next_mem (hr : Ring L h (l₁ ++ c :: l₂)) :
    L.next c = (l₂ ++ [h]).head (by simp) := by
  have hchain := hr.chain
  cases l₂ with
  | nil => exact (List.isChain_cons_cons.mp hchain).1.1
  | cons d l₂ => exact (List.isChain_cons_cons.mp hchain).1.1

/-- The links around `h`. -/
theorem Ring.link_head (hr : Ring L h l) : L.prev (L.next h) = h := by
  cases l with
  | nil =>
    obtain ⟨h1, h2⟩ := (List.isChain_cons_cons.mp hr.links).1
    rw [h1, h2]
  | cons c l =>
    obtain ⟨h1, h2⟩ := (List.isChain_cons_cons.mp hr.links).1
    rw [h1, h2]

/-- The links around a node. -/
theorem Ring.link_mem (hr : Ring L h l) (hn : n ∈ l) :
    L.next (L.prev n) = n ∧ L.prev (L.next n) = n := by
  obtain ⟨l₁, l₂, rfl⟩ := List.append_of_mem hn
  have hlinks := hr.links
  rw [List.cons_append, List.append_assoc, List.cons_append, ← List.cons_append,
    List.isChain_split] at hlinks
  obtain ⟨hleft, hright⟩ := hlinks
  constructor
  · obtain ⟨h1, h2⟩ := hleft.rel_getLast_head_of_append (List.cons_ne_nil _ _) (by simp)
    rw [List.head_singleton] at h1 h2
    rw [h2, h1]
  · cases l₂ with
    | nil =>
      obtain ⟨h1, h2⟩ := (List.isChain_cons_cons.mp hright).1
      rw [h1, h2]
    | cons d l₂ =>
      obtain ⟨h1, h2⟩ := (List.isChain_cons_cons.mp hright).1
      rw [h1, h2]

/-- A ring depends on its own links only. -/
theorem Ring.congr {L' : Links α} (hr : Ring L h l)
    (hlink : ∀ a ∈ h :: l, ∀ b ∈ h :: l, L.Link a b → L'.Link a b) : Ring L' h l := by
  refine ⟨hr.links.imp_of_mem_imp fun a b ha hb => hlink a ?_ b ?_, hr.nodup⟩
  · simpa [or_comm] using ha
  · simpa [or_comm] using hb

/-- The head of a ring leads to a node of it. -/
theorem Ring.next_head_mem (hr : Ring L h l) : L.next h ∈ h :: l := by
  rw [hr.next_head]
  have hmem : (l ++ [h]).head (by simp) ∈ l ++ [h] := List.head_mem _
  rwa [List.mem_append, List.mem_singleton, or_comm, ← List.mem_cons] at hmem

/-- The first node comes once. -/
theorem Ring.next_not_mem_tail (hr : Ring L h l) : L.next h ∉ (l ++ [h]).tail := by
  have hnodup : (l ++ [h]).Nodup := (List.perm_append_singleton h l).nodup_iff.mpr hr.nodup
  rw [hr.next_head]
  cases l with
  | nil => exact List.not_mem_nil
  | cons c l => exact (List.nodup_cons.mp hnodup).1

/-- A ring can be read from any of its nodes. -/
theorem Ring.rotate (hr : Ring L h (l₁ ++ n :: l₂)) : Ring L n (l₂ ++ h :: l₁) := by
  have hlinks := hr.links
  rw [List.cons_append, List.append_assoc, List.cons_append, ← List.cons_append,
    List.isChain_split] at hlinks
  obtain ⟨hleft, hright⟩ := hlinks
  refine ⟨?_, ?_⟩
  · rw [List.cons_append, List.append_assoc, List.cons_append, ← List.cons_append,
      List.isChain_split]
    exact ⟨hright, hleft⟩
  · have hperm : (h :: l₁ ++ n :: l₂).Perm (n :: l₂ ++ h :: l₁) := List.perm_append_comm
    exact hperm.nodup_iff.mp hr.nodup

/-- The node before the head is the last one. -/
theorem Ring.prev_head (hr : Ring L h l) : L.prev h = (h :: l).getLast (List.cons_ne_nil h l) := by
  have hlinks := (List.isChain_append.mp hr.links).2.2
  exact (hlinks _ (List.getLast?_eq_getLast_of_ne_nil _ ▸ rfl) h rfl).2

theorem Ring.next_mem_self (hr : Ring L h l) (ha : a ∈ h :: l) : L.next a ∈ h :: l := by
  rcases List.mem_cons.mp ha with rfl | ha
  · exact hr.next_head_mem
  · obtain ⟨l₁, l₂, rfl⟩ := List.append_of_mem ha
    have hmem := hr.rotate.next_head_mem
    simp only [List.mem_cons, List.mem_append] at hmem ⊢
    tauto

theorem Ring.prev_mem_self (hr : Ring L h l) (ha : a ∈ h :: l) : L.prev a ∈ h :: l := by
  rcases List.mem_cons.mp ha with rfl | ha
  · rw [hr.prev_head]
    exact List.getLast_mem _
  · obtain ⟨l₁, l₂, rfl⟩ := List.append_of_mem ha
    have hmem : L.prev a ∈ a :: (l₂ ++ h :: l₁) := by
      rw [hr.rotate.prev_head]
      exact List.getLast_mem _
    simp only [List.mem_cons, List.mem_append] at hmem ⊢
    tauto

/-- The links around any node of a ring. -/
theorem Ring.link_self (hr : Ring L h l) (ha : a ∈ h :: l) :
    L.next (L.prev a) = a ∧ L.prev (L.next a) = a := by
  rcases List.mem_cons.mp ha with rfl | ha
  · refine ⟨?_, hr.link_head⟩
    have hlinks := (List.isChain_append.mp hr.links).2.2
    rw [hr.prev_head]
    exact (hlinks _ (List.getLast?_eq_getLast_of_ne_nil _ ▸ rfl) _ rfl).1
  · exact hr.link_mem ha

/-- Two rings are the same nodes or have none in common. -/
theorem Ring.disjoint (hr₁ : Ring L n₁ l₁) (hr₂ : Ring L n₂ l₂) (hn : n₂ ∉ n₁ :: l₁)
    (ha : a ∈ n₂ :: l₂) : a ∉ n₁ :: l₁ := by
  -- The first ring is closed under `prev`, which leads from `a` to `n₂`.
  have hchain : (n₂ :: l₂).IsChain L.Link := hr₂.links.left_of_append
  have hall : ∀ b ∈ n₂ :: l₂, b ∉ n₁ :: l₁ := by
    refine List.IsChain.induction (fun b => b ∉ n₁ :: l₁) _ hchain (fun x y hxy hx hy => ?_) ?_
    · apply hx
      rw [← hxy.2]
      exact hr₁.prev_mem_self hy
    · intro _
      exact hn
  exact hall a ha

/-- Being in one ring is symmetric. -/
theorem Ring.mem_comm (hr₁ : Ring L n₁ l₁) (hr₂ : Ring L n₂ l₂) (hn : n₂ ∈ n₁ :: l₁) :
    n₁ ∈ n₂ :: l₂ := by
  by_contra hcontra
  exact hr₂.disjoint hr₁ hcontra hn List.mem_cons_self

variable [DecidableEq α]

/-- A node that starts afresh is a ring of its own, -/
theorem ring_init : Ring (L.init n) n [] := by
  refine ⟨List.isChain_pair.mpr ⟨?_, ?_⟩, List.nodup_singleton n⟩
  · exact Function.update_self ..
  · exact Function.update_self ..

/-- and rings without it stay as they are. -/
theorem Ring.init_other (hr : Ring L h l) (hn : n ∉ h :: l) : Ring (L.init n) h l := by
  have hne : ∀ a ∈ h :: l, a ≠ n := by
    rintro a ha rfl
    exact hn ha
  refine hr.congr fun a ha b hb hab => ⟨?_, ?_⟩
  · exact (Function.update_of_ne (hne a ha) _ _).trans hab.1
  · exact (Function.update_of_ne (hne b hb) _ _).trans hab.2

/-! ## Two rings become one -/

/-- A merge breaks only the link behind `n₁` and the one before `n₂`. -/
theorem link_merge (h₁ : L.prev (L.next n₁) = n₁) (h₂ : L.next (L.prev n₂) = n₂)
    (hab : L.Link a b) (ha : a ≠ n₁) (hb : b ≠ n₂) : (L.merge n₁ n₂).Link a b := by
  obtain ⟨hnext, hprev⟩ := hab
  have ha₄ : a ≠ L.prev n₂ := by
    rintro rfl
    exact hb (hnext.symm.trans h₂)
  have hb₃ : b ≠ L.next n₁ := by
    rintro rfl
    exact ha (hprev.symm.trans h₁)
  refine ⟨?_, ?_⟩
  · show Function.update (Function.update L.next n₁ n₂) (L.prev n₂) (L.next n₁) a = b
    rw [Function.update_of_ne ha₄, Function.update_of_ne ha, hnext]
  · show Function.update (Function.update L.prev n₂ n₁) (L.next n₁) (L.prev n₂) b = a
    rw [Function.update_of_ne hb₃, Function.update_of_ne hb, hprev]

/-- The two nodes meet, -/
theorem link_merge_nodes (h₁ : n₁ ≠ L.prev n₂) (h₂ : n₂ ≠ L.next n₁) :
    (L.merge n₁ n₂).Link n₁ n₂ := by
  refine ⟨?_, ?_⟩
  · show Function.update (Function.update L.next n₁ n₂) (L.prev n₂) (L.next n₁) n₁ = n₂
    rw [Function.update_of_ne h₁, Function.update_self]
  · show Function.update (Function.update L.prev n₂ n₁) (L.next n₁) (L.prev n₂) n₂ = n₁
    rw [Function.update_of_ne h₂, Function.update_self]

/-- and so do their former neighbours. -/
theorem link_merge_ends : (L.merge n₁ n₂).Link (L.prev n₂) (L.next n₁) :=
  ⟨Function.update_self .., Function.update_self ..⟩

theorem Ring.merge (hr₁ : Ring L n₁ l₁) (hr₂ : Ring L n₂ l₂) (hn : n₂ ∉ n₁ :: l₁) :
    Ring (L.merge n₁ n₂) n₁ (n₂ :: l₂ ++ l₁) := by
  have hdisj : ∀ a ∈ n₂ :: l₂, a ∉ n₁ :: l₁ := fun a ha => hr₁.disjoint hr₂ hn ha
  have hprev : L.prev n₂ ∈ n₂ :: l₂ := hr₂.prev_mem_self List.mem_cons_self
  have hnext : L.next n₁ ∈ n₁ :: l₁ := hr₁.next_head_mem
  have hne : ∀ a ∈ n₁ :: l₁, ∀ b ∈ n₂ :: l₂, a ≠ b := by
    rintro a ha b hb rfl
    exact hdisj a hb ha
  have hl₂ : n₂ ∉ l₂ := (List.nodup_cons.mp hr₂.nodup).1
  have h₂ := (hr₂.link_self List.mem_cons_self).1
  have hmeet : (L.merge n₁ n₂).Link n₁ n₂ :=
    link_merge_nodes (hne n₁ List.mem_cons_self _ hprev)
      (hne _ hnext n₂ List.mem_cons_self).symm
  -- The list of `n₂` keeps its links up to its last node,
  have hsecond : (n₂ :: l₂).IsChain (L.merge n₁ n₂).Link := by
    refine hr₂.links.left_of_append.imp_of_mem_tail_imp fun a b ha hb hab => ?_
    refine link_merge hr₁.link_head h₂ hab ?_ ?_
    · exact (hne n₁ List.mem_cons_self a ha).symm
    · rintro rfl
      exact hl₂ hb
  -- and the rest of the list of `n₁` all of them.
  have hfirst : (l₁ ++ [n₁]).IsChain (L.merge n₁ n₂).Link := by
    refine (List.isChain_cons.mp hr₁.links).2.imp_of_mem_tail_imp fun a b ha hb hab => ?_
    have hmem : ∀ x ∈ l₁ ++ [n₁], x ∈ n₁ :: l₁ := fun x hx => by simpa [or_comm] using hx
    refine link_merge hr₁.link_head h₂ hab ?_ ?_
    · rintro rfl
      exact hr₁.next_not_mem_tail (hab.1 ▸ hb)
    · exact hne b (hmem b (List.mem_of_mem_tail hb)) n₂ List.mem_cons_self
  refine ⟨?_, ?_⟩
  · rw [List.cons_append, List.append_assoc]
    refine List.isChain_cons.mpr ⟨?_, List.isChain_append.mpr ⟨hsecond, hfirst, ?_⟩⟩
    · intro y hy
      rw [List.cons_append, List.head?_cons, Option.mem_some] at hy
      exact hy ▸ hmeet
    · intro x hx y hy
      have hx' : x = L.prev n₂ := by
        rw [hr₂.prev_head]
        exact (List.getLast_of_mem_getLast? hx).symm
      have hy' : y = L.next n₁ := by
        rw [hr₁.next_head]
        exact (List.head_of_mem_head? hy).symm
      rw [hx', hy']
      exact link_merge_ends
  · rw [← List.singleton_append, ← List.append_assoc]
    refine (List.Perm.nodup_iff ?_).mpr (List.nodup_append'.mpr ⟨hr₂.nodup, hr₁.nodup, ?_⟩)
    · have hperm : ((n₂ :: l₂) ++ n₁ :: l₁).Perm (n₁ :: ((n₂ :: l₂) ++ l₁)) := List.perm_middle
      exact hperm.symm
    · exact hdisj

/-- A ring that neither node is in stays as it is. -/
theorem Ring.merge_other (hr₁ : Ring L n₁ l₁) (hr₂ : Ring L n₂ l₂) (hr : Ring L h l)
    (h₁ : n₁ ∉ h :: l) (h₂ : n₂ ∉ h :: l) : Ring (L.merge n₁ n₂) h l := by
  refine hr.congr fun a ha b hb hab =>
    link_merge hr₁.link_head (hr₂.link_self List.mem_cons_self).1 hab ?_ ?_
  · rintro rfl
    exact h₁ ha
  · rintro rfl
    exact h₂ hb

theorem Ring.insert (hr : Ring L h l) (hn : n ∉ h :: l) : Ring (L.insert h n) h (n :: l) :=
  (hr.init_other hn).merge ring_init hn

/-- A ring that the new node and the other ring do not meet stays as it is. -/
theorem Ring.insert_other (hr : Ring L h l) (hr' : Ring L h' l') (hn : n ∉ h :: l)
    (hn' : n ∉ h' :: l') (hh : h ∉ h' :: l') : Ring (L.insert h n) h' l' :=
  (hr.init_other hn).merge_other ring_init (hr'.init_other hn') hh hn'

/-! ## A node is taken out -/

theorem detach_next (a : α) :
    (L.detach n).next a = if a = n then n else if a = L.prev n then L.next n else L.next a := by
  unfold Links.detach Links.init
  by_cases han : a = n
  · subst han
    rw [if_pos rfl]
    exact Function.update_self ..
  · rw [if_neg han]
    show Function.update (Function.update L.next (L.prev n) (L.next n)) n n a = _
    rw [Function.update_of_ne han, Function.update_apply]

theorem detach_prev (a : α) :
    (L.detach n).prev a = if a = n then n else if a = L.next n then L.prev n else L.prev a := by
  have hnext : Function.update L.next (L.prev n) (L.next n) n = L.next n := by
    rw [Function.update_apply]
    split_ifs <;> rfl
  unfold Links.detach Links.init
  by_cases han : a = n
  · subst han
    rw [if_pos rfl]
    exact Function.update_self ..
  · rw [if_neg han]
    show Function.update (Function.update L.prev _ (L.prev n)) n n a = _
    rw [Function.update_of_ne han, Function.update_apply, hnext]

/-- Only the links of the node itself are broken. -/
theorem link_detach (hn : L.next (L.prev n) = n) (hn' : L.prev (L.next n) = n) (hab : L.Link a b)
    (han : a ≠ n) (hbn : b ≠ n) : (L.detach n).Link a b := by
  obtain ⟨h1, h2⟩ := hab
  refine ⟨?_, ?_⟩
  · have ha : a ≠ L.prev n := by
      rintro rfl
      exact hbn (h1.symm.trans hn)
    rw [detach_next, if_neg han, if_neg ha, h1]
  · have hb : b ≠ L.next n := by
      rintro rfl
      exact han (h2.symm.trans hn')
    rw [detach_prev, if_neg hbn, if_neg hb, h2]

theorem Ring.detach (hr : Ring L h (l₁ ++ n :: l₂)) : Ring (L.detach n) h (l₁ ++ l₂) := by
  have hmem : n ∈ l₁ ++ n :: l₂ := List.mem_append_right _ List.mem_cons_self
  obtain ⟨hn, hn'⟩ := hr.link_mem hmem
  have hnodup : (n :: (h :: l₁ ++ l₂)).Nodup := by
    refine (List.Perm.nodup_iff ?_).mp hr.nodup
    have hperm : (h :: l₁ ++ n :: l₂).Perm (n :: (h :: l₁ ++ l₂)) := List.perm_middle
    exact hperm
  obtain ⟨hnot, hrest⟩ := List.nodup_cons.mp hnodup
  have hne : ∀ a ∈ h :: l₁ ++ l₂, a ≠ n := by
    rintro a ha rfl
    exact hnot ha
  have hlinks := hr.links
  rw [List.cons_append, List.append_assoc, List.cons_append, ← List.cons_append,
    List.isChain_split] at hlinks
  obtain ⟨hleft, hright⟩ := hlinks
  refine ⟨?_, hrest⟩
  rw [List.cons_append, List.append_assoc, ← List.cons_append]
  refine List.isChain_append.mpr ⟨?_, ?_, fun x hx y hy => ?_⟩
  · refine hleft.left_of_append.imp_of_mem_imp fun a b ha hb hab => ?_
    exact link_detach hn hn' hab (hne a (List.mem_append_left _ ha))
      (hne b (List.mem_append_left _ hb))
  · refine hright.tail.imp_of_mem_imp fun a b ha hb hab => link_detach hn hn' hab ?_ ?_
    · refine hne a ?_
      simp only [List.mem_append, List.mem_cons, List.not_mem_nil, or_false] at ha ⊢
      tauto
    · refine hne b ?_
      simp only [List.mem_append, List.mem_cons, List.not_mem_nil, or_false] at hb ⊢
      tauto
  · -- The neighbours of the node meet.
    have hxn : L.Link x n := (List.isChain_append.mp hleft).2.2 x hx n rfl
    have hny : L.Link n y := (List.isChain_cons.mp hright).1 y hy
    have hxne : x ≠ n := hne x (List.mem_append_left _ (List.mem_of_mem_getLast? hx))
    have hyne : y ≠ n := by
      refine hne y ?_
      have := List.mem_of_mem_head? hy
      simp only [List.mem_append, List.mem_cons, List.not_mem_nil, or_false] at this ⊢
      tauto
    refine ⟨?_, ?_⟩
    · rw [detach_next, if_neg hxne, if_pos hxn.2.symm, hny.1]
    · rw [detach_prev, if_neg hyne, if_pos hny.1.symm, hxn.2]

/-- A ring without the node stays as it is, if the node was linked properly. -/
theorem Ring.detach_other (hr : Ring L h l) (hn : n ∈ l) (hr' : Ring L h' l') (hn' : n ∉ h' :: l') :
    Ring (L.detach n) h' l' := by
  obtain ⟨h1, h2⟩ := hr.link_mem hn
  refine hr'.congr fun a ha b hb hab => link_detach h1 h2 hab ?_ ?_
  · rintro rfl
    exact hn' ha
  · rintro rfl
    exact hn' hb

/-- A node that is alone stays as it is. -/
theorem Ring.detach_single (hr : Ring L n []) : L.detach n = L := by
  obtain ⟨hnext, hprev⟩ := (List.isChain_cons_cons.mp hr.links).1
  have hnext' : (L.detach n).next = L.next := by
    funext a
    rw [detach_next, hprev, hnext]
    split_ifs with ha
    · rw [ha, hnext]
    · rfl
  have hprev' : (L.detach n).prev = L.prev := by
    funext a
    rw [detach_prev, hprev, hnext]
    split_ifs with ha
    · rw [ha, hprev]
    · rfl
  cases L
  exact congrArg₂ Links.mk hnext' hprev'

/-- The node that is taken out is a ring of its own. -/
theorem ring_detach_self : Ring (L.detach n) n [] := ring_init

/-! ## Links that are inverse to each other -/

omit [DecidableEq α] in
/-- A chain of different nodes either comes back to its first node or can be continued. -/
theorem Links.Closed.extend (hc : L.Closed D) (hchain : (h :: l).IsChain L.Link)
    (hl : ∀ a ∈ h :: l, a ∈ D) (hnodup : (h :: l).Nodup) :
    (∃ l', Ring L h l' ∧ ∀ a ∈ l', a ∈ D) ∨
      ∃ c ∈ D, (h :: (l ++ [c])).IsChain L.Link ∧ c ∉ h :: l := by
  have hlast := List.getLast_mem (List.cons_ne_nil h l)
  have hlink : L.Link ((h :: l).getLast (List.cons_ne_nil h l))
      (L.next ((h :: l).getLast (List.cons_ne_nil h l))) := ⟨rfl, hc.prev_next _ (hl _ hlast)⟩
  have hadd : ((h :: l) ++ [L.next ((h :: l).getLast (List.cons_ne_nil h l))]).IsChain L.Link := by
    refine List.isChain_append.mpr ⟨hchain, List.isChain_singleton _, fun x hx y hy => ?_⟩
    rw [List.head?_cons, Option.mem_some] at hy
    rw [← hy, ← List.getLast_of_mem_getLast? hx]
    exact hlink
  by_cases hback : L.next ((h :: l).getLast (List.cons_ne_nil h l)) = h
  · left
    rw [hback] at hadd
    exact ⟨l, ⟨hadd, hnodup⟩, fun a ha => hl a (List.mem_cons_of_mem h ha)⟩
  · right
    refine ⟨_, hc.next_mem _ (hl _ hlast), hadd, fun hmem => ?_⟩
    -- A node further on in the chain has its predecessor there, which is not the last node.
    obtain ⟨l₁, l₂, hsplit⟩ := List.append_of_mem ((List.mem_cons.mp hmem).resolve_left hback)
    generalize hc' : L.next ((h :: l).getLast (List.cons_ne_nil h l)) = c at *
    subst hsplit
    rw [← List.cons_append, List.isChain_split] at hchain
    have hpre := hchain.1.rel_getLast_head_of_append (List.cons_ne_nil _ _) (by simp)
    rw [List.head_singleton] at hpre
    have heq : (h :: l₁).getLast (List.cons_ne_nil _ _) =
        (h :: (l₁ ++ c :: l₂)).getLast (List.cons_ne_nil _ _) := hpre.2.symm.trans hlink.2
    rw [← List.cons_append] at hnodup
    refine (List.nodup_append'.mp hnodup).2.2 (List.getLast_mem (List.cons_ne_nil h l₁)) ?_
    have hend : (h :: l₁ ++ c :: l₂).getLast (by simp) = (c :: l₂).getLast (by simp) :=
      List.getLast_append_of_ne_nil _ (List.cons_ne_nil c l₂)
    exact heq ▸ hend ▸ List.getLast_mem _

/-- Every node is in a ring. -/
theorem Links.Closed.ring (hc : L.Closed D) (hn : n ∈ D) :
    ∃ l, Ring L n l ∧ ∀ a ∈ l, a ∈ D := by
  have hgo : ∀ k l, (n :: l).IsChain L.Link → (∀ a ∈ n :: l, a ∈ D) → (n :: l).Nodup →
      D.card < l.length + k → ∃ l, Ring L n l ∧ ∀ a ∈ l, a ∈ D := by
    intro k
    induction k with
    | zero =>
      intro l _ hl hnodup hk
      have hcard : (n :: l).toFinset.card ≤ D.card :=
        Finset.card_le_card fun a ha => hl a (List.mem_toFinset.mp ha)
      rw [List.toFinset_card_of_nodup hnodup, List.length_cons] at hcard
      omega
    | succ k ih =>
      intro l hchain hl hnodup hk
      obtain hring | ⟨c, hcD, hchain', hcl⟩ := hc.extend hchain hl hnodup
      · exact hring
      · refine ih (l ++ [c]) hchain' ?_ ?_ ?_
        · intro a ha
          rw [← List.cons_append, List.mem_append, List.mem_singleton] at ha
          rcases ha with ha | rfl
          · exact hl a ha
          · exact hcD
        · rw [← List.cons_append]
          exact List.nodup_append'.mpr ⟨hnodup, List.nodup_singleton c, by simpa using hcl⟩
        · rw [List.length_append, List.length_singleton]
          omega
  exact hgo (D.card + 1) [] (List.isChain_singleton n) (by simpa using hn)
    (List.nodup_singleton n) (by simp)

omit [DecidableEq α] in
/-- The ring of a node of `D` stays in `D`. -/
theorem Ring.subset (hr : Ring L n l) (hc : L.Closed D) (hn : n ∈ D) : ∀ a ∈ n :: l, a ∈ D := by
  have hchain : (n :: l).IsChain L.Link := hr.links.left_of_append
  refine List.IsChain.induction (· ∈ D) _ hchain (fun x y hxy hx => ?_) (fun _ => hn)
  exact hxy.1 ▸ hc.next_mem x hx

omit [DecidableEq α] in
/-- Links are inverse to each other on `D` when `D` consists of rings. -/
theorem Links.Closed.of_rings
    (hall : ∀ n ∈ D, ∃ h l, Ring L h l ∧ n ∈ h :: l ∧ ∀ a ∈ h :: l, a ∈ D) : L.Closed D := by
  constructor
  · intro a ha
    obtain ⟨h, l, hr, hmem, hl⟩ := hall a ha
    exact hl _ (hr.next_mem_self hmem)
  · intro a ha
    obtain ⟨h, l, hr, hmem, hl⟩ := hall a ha
    exact hl _ (hr.prev_mem_self hmem)
  · intro a ha
    obtain ⟨h, l, hr, hmem, _⟩ := hall a ha
    exact (hr.link_self hmem).2
  · intro a ha
    obtain ⟨h, l, hr, hmem, _⟩ := hall a ha
    exact (hr.link_self hmem).1

end ShikiOS.Lib
