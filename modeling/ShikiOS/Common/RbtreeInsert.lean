import ShikiOS.Common.RbtreeRep

/-!
# Insertion into a red-black tree (`_rb_insert`)

Results:
* `insertRotate_spec`: the rotations of `__rb_insert_fix` keep the nodes in order.
* `insertFixLoop_spec`: the loop ends with a balanced tree of the same nodes.
* `insertLoop_spec`: the search ends at an equivalent node or at the place of the new one.
* `rbInsert_redBlack`: the call keeps the shape of the tree, whatever the order.
* `rbInsert_spec`: in a sorted tree it adds the node, or finds an equivalent one.
-/

namespace ShikiOS.Common.Rb

open ShikiOS.Lib.RedBlack RbTree

variable {α : Type} [DecidableEq α] {h : Heap α} {q : Option α} {t u v : RbTree α} {k : Path α}
  {d e : Side} {c : Color} {a b g : α} {n : ℕ}

/-! ## Rotations -/

/-- Case 3, where `t` is already below `b`, and `v` goes from below `b` to below `g`. -/
theorem insertCase3_spec (hp : RepPath h (some g) k) (hgp : h.parent g = top k)
    (hgc : h.color g = c) (hgu : h.child d.other g = u.root) (hu : Rep h (some g) u)
    (hbt : h.child d b = t.root) (ht : Rep h (some b) t) (hv : Rep h q v)
    (hvb : v.color = .black)
    (hnd : (plug k (mk d c t b (mk d .red v g u))).inorder.Nodup) :
    RepAt (h.insertCase3 d b g v.root) k (mk d c t b (mk d .red v g u)) := by
  have hnd' := nodup_mk_mk.mp hnd
  simp only [List.nodup_cons, List.nodup_append, List.mem_cons, List.mem_append, not_or] at hnd'
  obtain ⟨⟨hbg, hbt', hbv, hbu, hbk⟩, ⟨hgt, hgv, hgu', hgk⟩, htn, ⟨hvn, -, hvd⟩, htd⟩ := hnd'
  set h₁ := h.setChild d g v.root with hh₁
  set h₂ := h₁.setParentColorIf v.root (some g) .black with hh₂
  set h₃ := h₂.setChild d.other b (some g) with hh₃
  have hsame : ∀ x, x ≠ g → x ≠ b → x ∉ v.inorder → SameNode h h₃ x := fun x hxg hxb hxv =>
    ((sameNode_setChild hxg).trans (sameNode_setParentColorIf hxv)).trans (sameNode_setChild hxb)
  have hg₃ : h₃.parent g = h.parent g ∧ h₃.color g = h.color g := by
    have hg₂ : SameNode h₁ h₂ g := sameNode_setParentColorIf hgv
    exact ⟨hg₂.1, hg₂.2.1⟩
  have hv₃ : Rep h₃ (some g) v := by
    have hv₁ : Rep h₁ q v := (rep_setChild hgv).mpr hv
    have hv₂ := hv₁.setParentColorIf (q := some g) (c := .black) hvn
    rw [setColor_of_color hvb] at hv₂
    exact (rep_setChild hbv).mpr hv₂
  refine rotateSetParents_spec (h := h₃) ?_ (hg₃.1.trans hgp) (hg₃.2.trans hgc) ?_ ?_ ?_ ?_ ?_
    hv₃ ?_ hnd
  · refine (repPath_congr (fun x hx => hsame x ?_ ?_ ?_) ?_).mpr hp
    · grind
    · grind
    · grind
    · simp [hh₃, hh₂, hh₁]
  · simp [hh₃, hh₂, hh₁, setChild_child]
  · simp [hh₃, hh₂, hh₁, setChild_child, Ne.symm hbg, hgu]
  · simp [hh₃, hh₂, hh₁, setChild_child, hbg, hbt]
  · simp [hh₃, setChild_child]
  · exact (rep_congr fun x hx => hsame x (by grind) (by grind) (by grind)).mpr ht
  · exact (rep_congr fun x hx => hsame x (by grind) (by grind) (by grind)).mpr hu

/-- Cases 2 and 3: the rotations give a black tree with the nodes in the same order. -/
theorem insertRotate_spec {s x y : RbTree α}
    (hr : RepAt h (⟨e, .red, b, s⟩ :: ⟨d, .black, g, u⟩ :: k) (mk d .red x a y))
    (hx : x.color = .black) (hy : y.color = .black) (hs : s.color = .black)
    (hu : u.color = .black)
    (hnd : (plug k (mk d .black (mk e .red (mk d .red x a y) b s) g u)).inorder.Nodup) :
    ∃ t, RepAt (h.insertRotate d a b g) k t ∧
      t.inorder = (mk d .black (mk e .red (mk d .red x a y) b s) g u).inorder ∧
      t.color = .black ∧
      ∀ n, Bal n (mk d .red x a y) → Bal n s → Bal n u → Bal (n + 1) t := by
  obtain ⟨⟨hbp, hbc, hba, hbs, hrs, hgp, hgc, hgb, hgu, hru, hrk⟩, hra⟩ := hr
  simp only [root_mk, top_cons] at *
  by_cases hed : e = d
  · -- Case 3: the node is the outer child.
    subst hed
    have hord : (mk e .black (mk e .red x a y) b (mk e .red s g u)).inorder =
        (mk e .black (mk e .red (mk e .red x a y) b s) g u).inorder := inorder_rotate
    have hcond : ¬ some a = h.child e.other b := by
      rw [hbs]
      intro heq
      have hmem := mem_of_root heq.symm
      rw [← inorder_plug_congr hord, nodup_mk_mk] at hnd
      simp only [List.nodup_cons, List.nodup_append, List.mem_append] at hnd
      grind [mem_mk]
    have hbt : h.child e b = (mk e .red x a y).root := by rw [hba, root_mk]
    rw [Heap.insertRotate, if_neg hcond, hbs]
    refine ⟨_, insertCase3_spec hrk hgp hgc hgu hru hbt hra hrs hs ?_, hord, color_mk, ?_⟩
    · rwa [inorder_plug_congr hord]
    · intro n ht hsn hun
      exact bal_black.mpr ⟨ht, bal_red.mpr ⟨hs, hu, hsn, hun⟩⟩
  · -- Case 2: the node is the inner child, and goes up twice.
    obtain rfl : e = d.other := by cases e <;> cases d <;> simp_all [Side.other]
    rw [Side.other_other] at hbs
    have hord : (mk d .black (mk d .red s b x) a (mk d .red y g u)).inorder =
        (mk d .black (mk d.other .red (mk d .red x a y) b s) g u).inorder := by
      rw [mk_other]
      exact inorder_rotate_twice
    rw [Heap.insertRotate, if_pos hba.symm]
    obtain ⟨hap, hac, hax, hay, hrx, hry⟩ := rep_mk.mp hra
    rw [hax]
    rw [← inorder_plug_congr hord] at hnd
    have hnd' := nodup_mk_mk.mp hnd
    rw [(inorder_mk_perm.append_right _).cons _ |>.cons _ |>.nodup_iff] at hnd'
    simp only [List.nodup_cons, List.nodup_append, List.mem_cons, List.mem_append, not_or,
      List.cons_append] at hnd'
    set h₁ := h.setChild d.other b x.root with hh₁
    set h₂ := h₁.setParentColorIf x.root (some b) .black with hh₂
    set h₃ := h₂.setChild d a (some b) with hh₃
    set h₄ := h₃.setParentColor b (some a) .red with hh₄
    have hsame : ∀ z, z ≠ a → z ≠ b → z ∉ x.inorder → SameNode h h₄ z := fun z hza hzb hzx =>
      (((sameNode_setChild hzb).trans (sameNode_setParentColorIf hzx)).trans
        (sameNode_setChild hza)).trans (sameNode_setParentColor hzb)
    have hg₄ : SameNode h h₄ g := hsame g (by grind) (by grind) (by grind)
    have hx₄ : Rep h₄ (some b) x := by
      have hx₁ : Rep h₁ (some a) x := (rep_setChild (by grind)).mpr hrx
      have hx₂ := hx₁.setParentColorIf (q := some b) (c := .black) (by grind)
      rw [setColor_of_color hx] at hx₂
      have hx₃ : Rep h₃ (some b) x := (rep_setChild (by grind)).mpr hx₂
      exact (rep_setParentColor (by grind)).mpr hx₃
    have hb₄ : Rep h₄ (some a) (mk d .red s b x) := by
      refine rep_mk.mpr ⟨?_, ?_, ?_, ?_, ?_, hx₄⟩
      · rw [hh₄, setParentColor_parent, if_pos rfl]
      · rw [hh₄, setParentColor_color, if_pos rfl]
      · simp only [hh₄, hh₃, hh₂, hh₁, setParentColor_child, setChild_child,
          setParentColorIf_child]
        grind [Side.other_ne]
      · simp only [hh₄, hh₃, hh₂, hh₁, setParentColor_child, setChild_child,
          setParentColorIf_child]
        grind [Side.other_ne]
      · exact (rep_congr fun z hz => hsame z (by grind) (by grind) (by grind)).mpr hrs
    have hy₄ : h₄.child d.other a = y.root := by
      simp only [hh₄, hh₃, hh₂, hh₁, setParentColor_child, setChild_child,
        setParentColorIf_child]
      grind [Side.other_ne]
    have ha₄ : h₄.child d a = (mk d .red s b x).root := by
      rw [root_mk]
      simp [hh₄, hh₃, setChild_child]
    show ∃ t, RepAt (h₄.insertCase3 d a g (h₄.child d.other a)) k t ∧ _
    rw [hy₄]
    refine ⟨_, insertCase3_spec (q := some a) ?_ (hg₄.1.trans hgp) (hg₄.2.1.trans hgc)
      ((hg₄.2.2 _).trans hgu) ?_ ha₄ hb₄ ?_ hy hnd, hord, color_mk, ?_⟩
    · refine (repPath_congr (fun z hz => hsame z (by grind) (by grind) (by grind)) ?_).mpr hrk
      simp [hh₄, hh₃, hh₂, hh₁]
    · exact (rep_congr fun z hz => hsame z (by grind) (by grind) (by grind)).mpr hru
    · exact (rep_congr fun z hz => hsame z (by grind) (by grind) (by grind)).mpr hry
    · intro n ht hsn hun
      obtain ⟨-, -, hxn, hyn⟩ := bal_red.mp ht
      exact bal_black.mpr ⟨bal_red.mpr ⟨hs, hx, hsn, hxn⟩, bal_red.mpr ⟨hy, hu, hyn, hun⟩⟩

/-! ## The loop of `__rb_insert_fix` -/

/-- The test for the branch of `__rb_insert_fix`. -/
theorem insertSide_eq (hb : h.child d g = some b) (hu : h.child d.other g = u.root)
    (hbu : b ∉ u.inorder) :
    (if some b ≠ h.child .right g then Side.left else Side.right) = d := by
  cases d with
  | left =>
    have hne : some b ≠ h.child .right g := by
      rw [show h.child .right g = u.root from hu]
      exact fun heq => hbu (mem_of_root heq.symm)
    rw [if_pos hne]
  | right => rw [if_neg (not_not.mpr hb.symm)]

/-- Case 1: the red uncle becomes black, and the grandparent red. -/
theorem insertRecolor_spec {s : RbTree α} {f : α}
    (hr : RepAt h (⟨e, .red, b, s⟩ :: ⟨d, .black, g, u⟩ :: k) t) (hf : u.root = some f)
    (hnd : (plug (⟨e, .red, b, s⟩ :: ⟨d, .black, g, u⟩ :: k) t).inorder.Nodup) :
    RepAt (((h.setParentColor f (some g) .black).setParentColor b (some g) .black).setParentColor g
      (top k) .red) k (mk d .red (mk e .black t b s) g (u.setColor .black)) := by
  obtain ⟨⟨hbp, hbc, hbt, hbs, hrs, hgp, hgc, hgb, hgu, hru, hrk⟩, hrt⟩ := hr
  have hnd' := nodes_perm.nodup_iff.mp hnd
  simp only [nodes_cons, List.nodup_cons, List.nodup_append, List.mem_cons, List.mem_append,
    not_or] at hnd'
  have hfu : f ∈ u.inorder := mem_of_root hf
  set h₁ := h.setParentColor f (some g) .black with hh₁
  set h₂ := h₁.setParentColor b (some g) .black with hh₂
  set h₃ := h₂.setParentColor g (top k) .red with hh₃
  have hsame : ∀ z, z ≠ f → z ≠ b → z ≠ g → SameNode h h₃ z := fun z hzf hzb hzg =>
    ((sameNode_setParentColor hzf).trans (sameNode_setParentColor hzb)).trans
      (sameNode_setParentColor hzg)
  have hu₃ : Rep h₃ (some g) (u.setColor .black) := by
    have hu₁ : Rep (h.setParentColorIf u.root (some g) .black) (some g) (u.setColor .black) :=
      hru.setParentColorIf (by grind)
    rw [setParentColorIf_some hf] at hu₁
    have hbu : b ∉ (u.setColor .black).inorder := by grind [inorder_setColor]
    have hgu' : g ∉ (u.setColor .black).inorder := by grind [inorder_setColor]
    exact (rep_setParentColor hgu').mpr ((rep_setParentColor hbu).mpr hu₁)
  have hb₃ : h₃.parent b = some g ∧ h₃.color b = .black := by
    simp only [hh₃, hh₂, setParentColor_parent, setParentColor_color]
    grind
  have hg₃ : h₃.parent g = top k ∧ h₃.color g = .red := by
    simp only [hh₃, setParentColor_parent, setParentColor_color, if_true, and_self]
  refine ⟨?_, rep_mk.mpr ⟨hg₃.1, hg₃.2, ?_, ?_, ?_, hu₃⟩⟩
  · rw [root_mk]
    exact (repPath_congr (fun z hz => hsame z (by grind) (by grind) (by grind)) rfl).mpr hrk
  · rw [root_mk]
    exact hgb
  · rw [root_setColor]
    exact hgu
  · refine rep_mk.mpr ⟨hb₃.1, hb₃.2, hbt, hbs, ?_, ?_⟩
    · exact (rep_congr fun z hz => hsame z (by grind) (by grind) (by grind)).mpr hrt
    · exact (rep_congr fun z hz => hsame z (by grind) (by grind) (by grind)).mpr hrs

/-- Every round either ends the loop or goes up two levels, and a red node has a parent. -/
theorem insertFixLoop_spec {fuel : ℕ} (hr : RepAt h k t) (ha : t.root = some a)
    (hred : t.color = .red) (hbal : Bal n t) (hfit : Fits .black n k)
    (hnd : (plug k t).inorder.Nodup) (hfuel : k.length < fuel) :
    ∃ h' t', h.insertFixLoop fuel a (top k) = .ok h' ∧ RepAt h' [] t' ∧
      t'.inorder = (plug k t).inorder ∧ t'.color = .black ∧ ∃ m, Bal m t' := by
  induction fuel generalizing h k t a n with
  | zero => exact absurd hfuel (Nat.not_lt_zero _)
  | succ fuel ih =>
    match k, hfit with
    | [], _ =>
      obtain rfl | ⟨c, x, a', y, rfl⟩ := eq_mk .left t
      · cases ha
      obtain rfl : a' = a := by
        rw [root_mk] at ha
        exact Option.some.inj ha
      obtain rfl : c = .red := by rwa [color_mk] at hred
      have hrep : Rep (h.setParentColor a' none .black) none (mk .left .black x a' y) :=
        hr.sub.setParentColor hnd
      refine ⟨_, mk .left .black x a' y, rfl, ⟨?_, ?_⟩, ?_, color_mk, n + 1, ?_⟩
      · rw [root_mk]
        rfl
      · exact rep_setRoot.mpr hrep
      · exact inorder_mk_congr rfl rfl
      · exact bal_black.mpr (bal_red.mp hbal).2.2
    | ⟨e, .black, b, s⟩ :: k, hfit =>
      have hb : h.color b = .black := hr.path.2.1
      refine ⟨h, _, ?_, repAt_plug.mp hr, rfl, ?_⟩
      · rw [top_cons, Heap.insertFixLoop, if_pos hb]
      · exact Fits.plug (fits_black.mpr (fits_black.mp hfit)) hbal
    | ⟨e, .red, b, s⟩ :: k, hfit =>
      obtain ⟨-, hs, hsn, hfit⟩ := fits_red.mp hfit
      obtain ⟨d, g, u, k, rfl, hun, hfk⟩ := hfit.exists_black
      have hpath := hr.path
      obtain ⟨hbp, hbc, hba, hbs, hrs, hgp, hgc, hgb, hgu, hru, hrk⟩ := hpath
      have hbu : b ∉ u.inorder := by
        have hnd' := nodes_perm.nodup_iff.mp hnd
        simp only [nodes_cons, List.nodup_append, List.nodup_cons, List.mem_append] at hnd'
        grind
      have hside := insertSide_eq (d := d) hgb hgu hbu
      have hredp : h.redParent b = .ok (some g) := by
        rw [Heap.redParent, if_pos hbc, hbp, top_cons]
      rw [top_cons, Heap.insertFixLoop, if_neg (by rw [hbc]; nofun), hredp]
      simp only [bind, Except.bind, deref, hside]
      rw [hgu]
      by_cases huc : u.color = .red
      · -- Case 1: the loop goes on at the grandparent.
        obtain rfl | ⟨cu, ul, f, ur, rfl⟩ := eq_mk .left u
        · cases huc
        obtain rfl : cu = .red := by rwa [color_mk] at huc
        rw [root_mk, if_pos (by simpa using hru.isRed.mpr huc)]
        have hnext := insertRecolor_spec hr root_mk hnd
        have hgk : ((h.setParentColor f (some g) .black).setParentColor b (some g) .black).parent g =
            top k := by
          have hnd' := nodes_perm.nodup_iff.mp hnd
          simp only [nodes_cons, List.nodup_append, List.nodup_cons, List.mem_append,
            List.mem_cons, mem_mk] at hnd'
          rw [setParentColor_parent, if_neg (by grind), setParentColor_parent,
            if_neg (by grind), hgp]
        have hord : (plug k (mk d .red (mk e .black t b s) g
            ((mk .left .red ul f ur).setColor .black))).inorder =
              (plug (⟨e, .red, b, s⟩ :: ⟨d, .black, g, mk .left .red ul f ur⟩ :: k) t).inorder :=
          inorder_plug_congr (inorder_mk_congr (inorder_mk_congr rfl rfl) inorder_setColor)
        have hbal' : Bal (n + 1) (mk d .red (mk e .black t b s) g
            ((mk .left .red ul f ur).setColor .black)) :=
          bal_red.mpr ⟨color_mk, by rw [setColor_mk, color_mk], bal_black.mpr ⟨hbal, hsn⟩,
            hun.setBlack color_mk⟩
        have hlen : k.length < fuel := by
          simp only [List.length_cons] at hfuel
          omega
        obtain ⟨h', t', hloop, hr', hord', hend⟩ := ih hnext root_mk color_mk hbal' hfk
          (hord ▸ hnd) hlen
        simp only [hgk]
        exact ⟨h', t', hloop, hr', hord'.trans hord, hend⟩
      · -- Cases 2 and 3 end the loop.
        have huc' : u.color = .black := Color.eq_black huc
        have hnred : ¬ h.IsRed u.root := fun hcon => huc (hru.isRed.mp hcon)
        rw [if_neg hnred]
        obtain rfl | ⟨c, x, a', y, rfl⟩ := eq_mk d t
        · cases ha
        obtain rfl : a' = a := by
          rw [root_mk] at ha
          exact Option.some.inj ha
        obtain rfl : c = .red := by rwa [color_mk] at hred
        obtain ⟨hx, hy, -, -⟩ := bal_red.mp hbal
        obtain ⟨t', hr', hord, hblack, hbal'⟩ := insertRotate_spec hr hx hy hs huc' hnd
        have hplug := Fits.plug (hblack ▸ hfk) (hbal' n hbal hsn hun)
        exact ⟨_, _, rfl, repAt_plug.mp hr', inorder_plug_congr hord, hplug⟩

/-! ## The search for the place -/

/-- The new node is linked below the last node of the search. -/
theorem link_spec (hr : RepAt h k (mk d c .leaf b u)) (ha : a ∉ (plug k (mk d c .leaf b u)).inorder)
    (hleft : h.child .left a = none) (hright : h.child .right a = none)
    (hnd : (plug k (mk d c .leaf b u)).inorder.Nodup) :
    RepAt ((h.setChild d b (some a)).setParentColor a (some b) .red) (⟨d, c, b, u⟩ :: k)
      (.node .red .leaf a .leaf) := by
  obtain ⟨hpath, hsub⟩ := hr
  rw [root_mk] at hpath
  obtain ⟨h1, h2, h3, h4, -, h6⟩ := rep_mk.mp hsub
  have hnd' := nodes_perm.nodup_iff.mp hnd
  rw [(inorder_mk_perm.append_right _).nodup_iff] at hnd'
  simp only [inorder_leaf, List.nil_append, List.cons_append, List.nodup_cons, List.mem_append,
    not_or] at hnd'
  rw [mem_plug, mem_mk] at ha
  have hab : b ≠ a := by grind
  have hau : a ∉ u.inorder := by grind
  have hak : a ∉ nodes k := by grind
  refine ⟨⟨?_, ?_, ?_, ?_, ?_, ?_⟩, ?_, ?_, ?_, ?_, trivial, trivial⟩
  · rw [setParentColor_parent, if_neg hab]
    exact h1
  · rw [setParentColor_color, if_neg hab]
    exact h2
  · rw [setParentColor_child, setChild_child, if_pos ⟨rfl, rfl⟩]
    rfl
  · rw [setParentColor_child, setChild_child, if_neg fun he => Side.other_ne d he.1]
    exact h4
  · exact (rep_setParentColor hau).mpr ((rep_setChild hnd'.1.1).mpr h6)
  · exact (repPath_setParentColor hak).mpr ((repPath_setChild hnd'.1.2).mpr hpath)
  · rw [setParentColor_parent, if_pos rfl, top_cons]
  · rw [setParentColor_color, if_pos rfl]
  · rw [setParentColor_child, setChild_child, if_neg fun he => hab he.2.symm]
    exact hleft
  · rw [setParentColor_child, setChild_child, if_neg fun he => hab he.2.symm]
    exact hright

/-- The way that the search for `a` took: left of the nodes that `a` is less than, and right of
    those that are less than `a`. -/
def Turns (cmp : α → α → Bool) (a : α) (k : Path α) : Prop :=
  ∀ f ∈ k, (f.side = .left ∧ Less cmp a f.node) ∨ (f.side = .right ∧ Less cmp f.node a)

/-- How the search ends: at an equivalent node of `t`, or with `a` linked below a node. -/
def Found (cmp : α → α → Bool) (a : α) (k : Path α) (t : RbTree α)
    (out : Except Fault (Option (Heap α))) : Prop :=
  (out = .ok none ∧ ∃ b ∈ t.inorder, IncompRel (Less cmp) a b) ∨
    ∃ h' k', out = .ok (some h') ∧ RepAt h' k' (.node .red .leaf a .leaf) ∧
      plug k' .leaf = plug k t ∧ Turns cmp a k'

section Search

variable {cmp : α → α → Bool} {fuel : ℕ}

omit [DecidableEq α] in
theorem Turns.cons {f : Step α} (hk : Turns cmp a k)
    (hf : (f.side = .left ∧ Less cmp a f.node) ∨ (f.side = .right ∧ Less cmp f.node a)) :
    Turns cmp a (f :: k) := by
  intro g hg
  rcases List.mem_cons.mp hg with rfl | hg
  · exact hf
  · exact hk g hg

omit [DecidableEq α] in
/-- In a sorted tree `a` is between the nodes before and after its place. -/
theorem Turns.between [IsStrictOrder α (Less cmp)] (hs : Sorted (Less cmp) (plug k t))
    (hk : Turns cmp a k) : (∀ b ∈ before k, Less cmp b a) ∧ ∀ b ∈ after k, Less cmp a b := by
  induction k generalizing t with
  | nil => exact ⟨fun _ hb => absurd hb List.not_mem_nil, fun _ hb => absurd hb List.not_mem_nil⟩
  | cons f k ih =>
    obtain ⟨d, c, b, u⟩ := f
    obtain ⟨hbefore, hafter⟩ := ih hs fun g hg => hk g (List.mem_cons_of_mem _ hg)
    have hsub : Sorted (Less cmp) (mk d c t b u) := Sorted.sub (k := k) hs
    rcases hk _ List.mem_cons_self with ⟨rfl, hab⟩ | ⟨rfl, hba⟩
    · -- Everything right of `b` is greater than `b`, which is greater than `a`.
      refine ⟨hbefore, fun x hx => ?_⟩
      simp only [after, List.cons_append, List.mem_cons, List.mem_append] at hx
      rcases hx with rfl | hx | hx
      · exact hab
      · have hbx : Less cmp b x := hsub.lt_right hx
        exact IsTrans.trans a b x hab hbx
      · exact hafter x hx
    · refine ⟨fun x hx => ?_, hafter⟩
      simp only [before, List.mem_append, List.mem_singleton] at hx
      rcases hx with (hx | hx) | rfl
      · exact hbefore x hx
      · have hxb : Less cmp x b := hsub.lt_left hx
        exact IsTrans.trans x b a hxb hba
      · exact hba

/-- The search goes on in the child `t` on the side `d` of `b`. -/
theorem insertStep_spec (hr : RepAt h k (mk d c t b u))
    (ha : a ∉ (plug k (mk d c t b u)).inorder) (hleft : h.child .left a = none)
    (hright : h.child .right a = none) (hnd : (plug k (mk d c t b u)).inorder.Nodup)
    (hturns : Turns cmp a (⟨d, c, b, u⟩ :: k))
    (hrec : t ≠ .leaf → Found cmp a (⟨d, c, b, u⟩ :: k) t (Heap.insertLoop cmp a fuel h t.root)) :
    Found cmp a k (mk d c t b u)
      (match h.child d b with
        | none => Heap.insertLoop cmp a fuel
            ((h.setChild d b (some a)).setParentColor a (some b) .red) none
        | some next => Heap.insertLoop cmp a fuel h (some next)) := by
  have hchild : h.child d b = t.root := (rep_mk.mp hr.sub).2.2.1
  rw [hchild]
  cases t with
  | leaf =>
    refine .inr ⟨_, _, ?_, link_spec hr ha hleft hright hnd, rfl, hturns⟩
    cases fuel <;> rfl
  | node c' l x r =>
    rcases hrec nofun with ⟨hout, y, hy, hinc⟩ | ⟨h', k', hout, hr', hplug, hs'⟩
    · exact .inl ⟨hout, y, mem_mk.mpr (.inr (.inl hy)), hinc⟩
    · exact .inr ⟨h', k', hout, hr', hplug, hs'⟩

theorem insertLoop_spec (hr : RepAt h k t) (ht : t ≠ .leaf) (ha : a ∉ (plug k t).inorder)
    (hleft : h.child .left a = none) (hright : h.child .right a = none)
    (hnd : (plug k t).inorder.Nodup) (hturns : Turns cmp a k) (hfuel : t.inorder.length ≤ fuel) :
    Found cmp a k t (Heap.insertLoop cmp a fuel h t.root) := by
  induction t generalizing k fuel with
  | leaf => exact absurd rfl ht
  | node c l b r ihl ihr =>
    have hlen : l.inorder.length + r.inorder.length + 1 ≤ fuel := by
      have : (node c l b r).inorder.length = l.inorder.length + (r.inorder.length + 1) := by
        rw [RbTree.inorder, List.length_append, List.length_cons]
      omega
    obtain ⟨fuel, rfl⟩ := Nat.exists_eq_add_of_le' (show 1 ≤ fuel by omega)
    show Found _ _ _ _ (Heap.insertLoop cmp a (fuel + 1) h (some b))
    rw [Heap.insertLoop]
    split_ifs with hab hba
    · have hk : Turns cmp a (⟨.left, c, b, r⟩ :: k) := hturns.cons (.inl ⟨rfl, hab⟩)
      exact insertStep_spec (d := .left) hr ha hleft hright hnd hk fun hl =>
        ihl (repAt_cons.mpr hr) hl ha hnd hk (by omega)
    · have hk : Turns cmp a (⟨.right, c, b, l⟩ :: k) := hturns.cons (.inr ⟨rfl, hba⟩)
      exact insertStep_spec (d := .right) hr ha hleft hright hnd hk fun hl =>
        ihr (repAt_cons.mpr hr) hl ha hnd hk (by omega)
    · exact .inl ⟨rfl, b, List.mem_append_right _ List.mem_cons_self, hab, hba⟩

/-! ## `_rb_insert` -/

/-- `__rb_insert_fix` where the new node is linked. -/
theorem insertFix_spec (hr : RepAt h k (.node .red .leaf a .leaf)) (hfit : Fits .black 0 k)
    (hnd : (plug k (.node .red .leaf a .leaf)).inorder.Nodup) (hfuel : k.length < fuel) :
    ∃ h' t', h.insertFix fuel a = .ok h' ∧ RepAt h' [] t' ∧
      t'.inorder = before k ++ [a] ++ after k ∧ t'.color = .black ∧ ∃ m, Bal m t' := by
  have hbal : Bal 0 (.node .red .leaf a .leaf) :=
    (bal_red (d := .left)).mpr ⟨rfl, rfl, bal_leaf.mpr rfl, bal_leaf.mpr rfl⟩
  obtain ⟨h', t', hloop, hr', hord, hend⟩ := insertFixLoop_spec hr rfl rfl hbal hfit hnd hfuel
  rw [inorder_plug] at hord
  have hparent : h.redParent a = .ok (top k) := by
    rw [Heap.redParent, if_pos hr.sub.2.1, hr.sub.1]
  refine ⟨h', t', ?_, hr', hord, hend⟩
  rw [Heap.insertFix, hparent]
  exact hloop

/-- A node outside the tree may be written. -/
theorem clearNode_repAt (hr : RepAt h [] t) (ha : a ∉ t.inorder) :
    RepAt (h.clearNode a) [] t :=
  ⟨hr.path, (rep_setParentColor ha).mpr ((rep_setChild ha).mpr ((rep_setChild ha).mpr hr.sub))⟩

theorem clearNode_child : (h.clearNode a).child d a = none := by
  cases d with
  | left => simp [Heap.clearNode, setChild_child]
  | right => simp [Heap.clearNode, setChild_child]

/-- Into the empty tree: `__rb_insert_fix` sets the root. -/
theorem rbInsert_empty (ht : h.root = none) (hfuel : 0 < fuel) :
    ∃ h', h.rbInsert cmp fuel a = .ok (0, h') ∧
      IsRedBlack h' (.node .black .leaf a .leaf) := by
  obtain ⟨fuel, rfl⟩ := Nat.exists_eq_add_of_le' hfuel
  have hparent : (h.clearNode a).redParent a = .ok none := by
    simp [Heap.redParent, Heap.clearNode, setParentColor_parent, setParentColor_color]
  refine ⟨((h.clearNode a).setParentColor a none .black).setRoot (some a), ?_, ⟨rfl, ?_⟩,
    List.nodup_singleton a, rfl, 1, nofun, 0, rfl, bal_leaf.mpr rfl, bal_leaf.mpr rfl⟩
  · rw [Heap.rbInsert, ht, Heap.insertLoop]
    simp only [bind, Except.bind, pure, Except.pure, Heap.insertFix, hparent,
      Heap.insertFixLoop]
  · have ha : Rep (h.clearNode a) none (.node .red .leaf a .leaf) := by
      refine ⟨?_, ?_, clearNode_child, clearNode_child, trivial, trivial⟩
      · rw [Heap.clearNode, setParentColor_parent, if_pos rfl]
      · rw [Heap.clearNode, setParentColor_color, if_pos rfl]
    exact rep_setRoot.mpr (Rep.setParentColor (d := .left) ha (List.nodup_singleton a))

/-- The call ends, whatever `cmp` says: at an equivalent node, or with `a` in the place that the
    turns lead to. -/
theorem rbInsert_place (cmp : α → α → Bool) (ht : IsRedBlack h t) (ha : a ∉ t.inorder)
    (hfuel : t.inorder.length < fuel) :
    (h.rbInsert cmp fuel a = .ok (-1, h.clearNode a) ∧
      ∃ b ∈ t.inorder, IncompRel (Less cmp) a b) ∨
    ∃ h' t' k, h.rbInsert cmp fuel a = .ok (0, h') ∧ IsRedBlack h' t' ∧
      t = plug k .leaf ∧ Turns cmp a k ∧ t'.inorder = before k ++ [a] ++ after k := by
  by_cases hleaf : t = .leaf
  · subst hleaf
    obtain ⟨h', hout, ht'⟩ := rbInsert_empty ht.rep.path
      (Nat.zero_lt_of_lt hfuel)
    exact .inr ⟨h', _, [], hout, ht', rfl, fun _ hf => absurd hf List.not_mem_nil, rfl⟩
  have hr := clearNode_repAt ht.rep ha
  have hroot : h.root = t.root := ht.rep.path
  have hfound : Found cmp a [] t (Heap.insertLoop cmp a fuel (h.clearNode a) t.root) :=
    insertLoop_spec hr hleaf ha clearNode_child clearNode_child ht.nodup
      (fun _ hf => absurd hf List.not_mem_nil) hfuel.le
  rcases hfound with ⟨hout, hinc⟩ | ⟨h₁, k, hout, hr₁, hplug, hturns⟩
  · refine .inl ⟨?_, hinc⟩
    simp only [Heap.rbInsert, hroot, hout, bind, Except.bind, pure, Except.pure]
  · rw [plug_nil] at hplug
    subst hplug
    obtain ⟨n, hn⟩ := ht.bal
    obtain ⟨m, hm, hfit⟩ := Fits.of_plug ht.black hn
    rw [bal_leaf] at hm
    subst hm
    have hord : (plug k (.node .red .leaf a .leaf)).inorder = before k ++ [a] ++ after k :=
      inorder_plug
    have hnd : (before k ++ [a] ++ after k).Nodup := by
      have hold := ht.nodup
      rw [inorder_plug, inorder_leaf, List.append_nil] at hold ha
      rw [List.append_assoc]
      exact List.nodup_middle.mpr (List.nodup_cons.mpr ⟨ha, hold⟩)
    obtain ⟨h', t', hfix, hr', hord', hblack, hbal⟩ := insertFix_spec hr₁ hfit (hord ▸ hnd)
      (length_le_plug.trans_lt hfuel)
    refine .inr ⟨h', t', k, ?_, ⟨hr', hord' ▸ hnd, hblack, hbal⟩, rfl, hturns, hord'⟩
    simp only [Heap.rbInsert, hroot, hout, bind, Except.bind, pure, Except.pure, hfix]

omit [DecidableEq α] in
/-- The nodes around the place of the new one are those of the tree. -/
theorem mem_place (hplug : t = plug k .leaf) (x : α) :
    x ∈ before k ++ [a] ++ after k ↔ x = a ∨ x ∈ t.inorder := by
  rw [hplug, inorder_plug, inorder_leaf, List.append_nil]
  simp only [List.mem_append, List.mem_singleton]
  tauto

/-- Insertion keeps the shape: without an equivalent node in the tree the call adds `a`, and the
    tree is red-black afterwards, so it is not high. -/
theorem rbInsert_redBlack (ht : IsRedBlack h t) (ha : a ∉ t.inorder)
    (hnew : ∀ b ∈ t.inorder, ¬ IncompRel (Less cmp) a b) (hfuel : t.inorder.length < fuel) :
    ∃ h' t', h.rbInsert cmp fuel a = .ok (0, h') ∧ IsRedBlack h' t' ∧
      (∀ x, x ∈ t'.inorder ↔ x = a ∨ x ∈ t.inorder) ∧
      height t' ≤ 2 * Nat.log 2 (t'.inorder.length + 1) := by
  rcases rbInsert_place cmp ht ha hfuel with
    ⟨_, b, hb, hinc⟩ | ⟨h', t', k, hout, ht', hplug, _, hord⟩
  · exact absurd hinc (hnew b hb)
  · refine ⟨h', t', hout, ht', fun x => ?_, ht'.height_le⟩
    rw [hord]
    exact mem_place hplug x

omit [DecidableEq α] in
theorem rbInsert_redBlack_pair :
    IsRedBlack pairHeap pairTree ∧ ∃ h' t',
      pairHeap.rbInsert (fun a b => decide (a < b)) 3 2 = .ok (0, h') ∧ IsRedBlack h' t' := by
  obtain ⟨h', t', hout, ht', -⟩ : ∃ h' t',
      pairHeap.rbInsert (fun a b => decide (a < b)) 3 2 = .ok (0, h') ∧ IsRedBlack h' t' ∧
      (∀ x, x ∈ t'.inorder ↔ x = 2 ∨ x ∈ pairTree.inorder) ∧ _ :=
    rbInsert_redBlack pairHeap_isRedBlack (by decide) (by unfold IncompRel; decide) (by decide)
  exact ⟨pairHeap_isRedBlack, h', t', hout, ht'⟩

theorem rbInsert_spec [IsStrictOrder α (Less cmp)] (ht : IsTree cmp h t) (ha : a ∉ t.inorder)
    (hfuel : t.inorder.length < fuel) :
    (h.rbInsert cmp fuel a = .ok (-1, h.clearNode a) ∧
      ∃ b ∈ t.inorder, IncompRel (Less cmp) a b) ∨
    ∃ h' t', h.rbInsert cmp fuel a = .ok (0, h') ∧
      (∀ b ∈ t.inorder, ¬ IncompRel (Less cmp) a b) ∧ IsTree cmp h' t' ∧
      ∀ x, x ∈ t'.inorder ↔ x = a ∨ x ∈ t.inorder := by
  rcases rbInsert_place cmp ht.isRedBlack ha hfuel with
    hout | ⟨h', t', k, hout, ht', hplug, hturns, hord⟩
  · exact .inl hout
  · have hs := ht.sorted
    rw [hplug] at hs
    obtain ⟨hbefore, hafter⟩ := hturns.between hs
    refine .inr ⟨h', t', hout, fun b hb hinc => ?_, ht'.isTree ?_, fun x => ?_⟩
    · rw [hplug, inorder_plug, inorder_leaf, List.append_nil, List.mem_append] at hb
      rcases hb with hb | hb
      · exact hinc.2 (hbefore b hb)
      · exact hinc.1 (hafter b hb)
    · rw [Sorted, hord]
      exact sorted_insert hs hbefore hafter
    · rw [hord]
      exact mem_place hplug x

end Search

end ShikiOS.Common.Rb
