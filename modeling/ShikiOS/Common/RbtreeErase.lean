import ShikiOS.Common.RbtreeRep

/-!
# Removal from a red-black tree (`_rb_erase`)

Results:
* `eraseCase1_spec`, `eraseCase3_spec`, `eraseCase4_spec`: the rotations of `__rb_erase_fix`.
* `eraseFixLoop_spec`: the loop repairs a subtree that has a black node too few.
* `eraseNode_spec`: the node is cut out, and one place may have a black node too few.
* `rbErase_redBlack`: the call keeps the shape of the tree, whatever the order.
* `rbErase_spec`: in a sorted tree it removes its node.
-/

namespace ShikiOS.Common.Rb

open ShikiOS.Lib.RedBlack RbTree

variable {α : Type} [DecidableEq α] {h : Heap α} {p q : Option α} {t u v : RbTree α} {k : Path α}
  {d e : Side} {c : Color} {a b s : α} {n : ℕ}

/-! ## Rotations -/

/-- The last part of `__rb_erase_fix`: the sibling `s` goes to the place of the parent `a`. -/
theorem eraseCase4_spec {f : α} (hp : RepPath h (some a) k) (hap : h.parent a = top k)
    (hac : h.color a = c) (hat : h.child d a = t.root) (ht : Rep h (some a) t)
    (hsu : h.child d s = u.root) (hu : Rep h p u) (hsv : h.child d.other s = v.root)
    (hv : Rep h q v) (hf : v.root = some f)
    (hnd : (plug k (mk d.other c v s (mk d.other .black u a t))).inorder.Nodup) :
    RepAt (h.eraseCase4 d a s f) k
      (mk d.other c (v.setColor .black) s (mk d.other .black u a t)) := by
  have hnd' := nodup_mk_mk.mp hnd
  simp only [List.nodup_cons, List.nodup_append, List.mem_cons, List.mem_append, not_or] at hnd'
  set h₁ := h.setChild d.other a u.root with hh₁
  set h₂ := h₁.setParentIf u.root (some a) with hh₂
  set h₃ := h₂.setChild d s (some a) with hh₃
  set h₄ := h₃.setParentColor f (some s) .black with hh₄
  have hfv : f ∈ v.inorder := mem_of_root hf
  have hsame : ∀ x, x ≠ a → x ≠ s → x ≠ f → x ∉ u.inorder → SameNode h h₄ x :=
    fun x hxa hxs hxf hxu => (((sameNode_setChild hxa).trans (sameNode_setParentIf hxu)).trans
      (sameNode_setChild hxs)).trans (sameNode_setParentColor hxf)
  have ha₄ : h₄.parent a = h.parent a ∧ h₄.color a = h.color a := by
    have ha₂ : SameNode h₁ h₂ a := sameNode_setParentIf (by grind)
    have ha₃ : SameNode h₃ h₄ a := sameNode_setParentColor (by grind)
    exact ⟨ha₃.1.trans ha₂.1, ha₃.2.1.trans ha₂.2.1⟩
  have hu₄ : Rep h₄ (some a) u := by
    have hu₁ : Rep h₁ p u := (rep_setChild (by grind)).mpr hu
    have hu₂ : Rep h₂ (some a) u := hu₁.setParentIf (by grind)
    have hu₃ : Rep h₃ (some a) u := (rep_setChild (by grind)).mpr hu₂
    exact (rep_setParentColor (by grind)).mpr hu₃
  have hv₄ : Rep h₄ (some s) (v.setColor .black) := by
    have hv₃ : Rep h₃ q v := by
      refine (rep_congr fun x hx => ?_).mpr hv
      exact ((sameNode_setChild (by grind)).trans (sameNode_setParentIf (by grind))).trans
        (sameNode_setChild (by grind))
    have hv₄ := hv₃.setParentColorIf (q := some s) (c := .black) (by grind)
    rwa [setParentColorIf_some hf] at hv₄
  have hroot : (v.setColor .black).root = v.root := root_setColor
  have hnd₄ : (plug k (mk d.other c (v.setColor .black) s (mk d.other .black u a t))).inorder.Nodup := by
    rwa [inorder_plug_congr (inorder_mk_congr inorder_setColor rfl)]
  show RepAt (Heap.rotateSetParents _ a s .black) k _
  rw [hsu]
  refine rotateSetParents_spec (h := h₄) ?_ (ha₄.1.trans hap) (ha₄.2.trans hac) ?_ ?_ ?_ ?_ hv₄ hu₄
    ?_ hnd₄
  · refine (repPath_congr (fun x hx => hsame x ?_ ?_ ?_ ?_) ?_).mpr hp
    · grind
    · grind
    · grind
    · grind
    · simp [hh₄, hh₃, hh₂, hh₁]
  · simp only [hh₄, hh₃, hh₂, hh₁, setParentColor_child, setParentIf_child, setChild_child]
    grind [Side.other_ne]
  · simp only [hh₄, hh₃, hh₂, hh₁, setParentColor_child, setParentIf_child, setChild_child,
      Side.other_other]
    grind [Side.other_ne]
  · simp only [hh₄, hh₃, hh₂, hh₁, setParentColor_child, setParentIf_child, setChild_child]
    grind [Side.other_ne]
  · simp only [hh₄, hh₃, setParentColor_child, setChild_child, Side.other_other, and_self,
      if_true]
  · exact (rep_congr fun x hx => hsame x (by grind) (by grind) (by grind) (by grind)).mpr ht

/-- Case 3: the red child `b` of the sibling `s` goes up twice. -/
theorem eraseCase3_spec {x y : RbTree α}
    (hr : RepAt h (⟨d, c, a, mk d .black (mk d .red x b y) s v⟩ :: k) t) (hy : y.color = .black)
    (hnd : (plug k (mk d c t a (mk d .black (mk d .red x b y) s v))).inorder.Nodup) :
    RepAt (h.eraseCase3 d a s b) k
      (mk d.other c (mk d .black y s v) b (mk d.other .black x a t)) := by
  have hord : (mk d.other c (mk d .black y s v) b (mk d.other .black x a t)).inorder =
      (mk d c t a (mk d .black (mk d .red x b y) s v)).inorder := by
    rw [mk_other, mk_other]
    exact inorder_rotate_twice'
  obtain ⟨⟨hap, hac, hat, has, hrs, hrk⟩, ht⟩ := hr
  obtain ⟨hsp, hsc, hsb, hsv, hrb, hrv⟩ := rep_mk.mp hrs
  obtain ⟨hbp, hbc, hbx, hby, hrx, hry⟩ := rep_mk.mp hrb
  rw [← inorder_plug_congr hord] at hnd
  have hnd' := nodup_mk_mk.mp hnd
  rw [(inorder_mk_perm.append_right _).cons _ |>.cons _ |>.nodup_iff] at hnd'
  simp only [List.nodup_cons, List.nodup_append, List.mem_cons, List.mem_append, not_or,
    List.cons_append] at hnd'
  rw [root_mk] at has hsb
  set h₁ := h.setChild d s y.root with hh₁
  set h₂ := h₁.setParentColorIf y.root (some s) .black with hh₂
  set h₃ := h₂.setChild d.other b (some s) with hh₃
  set h₄ := h₃.setChild d.other a (some b) with hh₄
  have hsame : ∀ z, z ≠ s → z ≠ b → z ≠ a → z ∉ y.inorder → SameNode h h₄ z :=
    fun z hzs hzb hza hzy => (((sameNode_setChild hzs).trans (sameNode_setParentColorIf hzy)).trans
      (sameNode_setChild hzb)).trans (sameNode_setChild hza)
  have hfields : ∀ z, z ∉ y.inorder → h₄.parent z = h.parent z ∧ h₄.color z = h.color z := by
    intro z hz
    have hz₂ : SameNode h₁ h₂ z := sameNode_setParentColorIf hz
    exact ⟨hz₂.1, hz₂.2.1⟩
  have hchild : ∀ z f, h₄.child f z = if f = d.other ∧ z = a then some b else
      if f = d.other ∧ z = b then some s else if f = d ∧ z = s then y.root else h.child f z := by
    intro z f
    simp only [hh₄, hh₃, hh₂, hh₁, setChild_child, setParentColorIf_child]
  have hy₄ : Rep h₄ (some s) y := by
    have hy₁ : Rep h₁ (some b) y := (rep_setChild (by grind)).mpr hry
    have hy₂ := hy₁.setParentColorIf (q := some s) (c := .black) (by grind)
    rw [setColor_of_color hy] at hy₂
    have hy₃ : Rep h₃ (some s) y := (rep_setChild (by grind)).mpr hy₂
    exact (rep_setChild (by grind)).mpr hy₃
  have hs₄ : Rep h₄ (some a) (mk d .black y s v) := by
    refine rep_mk.mpr ⟨?_, ?_, ?_, ?_, hy₄, ?_⟩
    · rw [(hfields s (by grind)).1, hsp]
    · rw [(hfields s (by grind)).2, hsc]
    · rw [hchild]
      grind [Side.other_ne]
    · rw [hchild]
      grind [Side.other_ne]
    · exact (rep_congr fun z hz => hsame z (by grind) (by grind) (by grind) (by grind)).mpr hrv
  have hcolor : (mk d .black y s v).setColor .black = mk d .black y s v := setColor_mk
  show RepAt (Heap.eraseCase4 (h := Heap.setChild _ _ _ _) d a b s) k _
  rw [hby, ← hcolor]
  have ha₄ := hfields a (by grind)
  refine eraseCase4_spec (h := h₄) (p := some b) (q := some a) ?_ (ha₄.1.trans hap)
    (ha₄.2.trans hac) ?_ ?_ ?_ ?_ ?_ hs₄ root_mk hnd
  · refine (repPath_congr (fun z hz => hsame z (by grind) (by grind) (by grind) (by grind)) ?_).mpr
      hrk
    simp [hh₄, hh₃, hh₂, hh₁]
  · rw [hchild]
    grind [Side.other_ne]
  · exact (rep_congr fun z hz => hsame z (by grind) (by grind) (by grind) (by grind)).mpr ht
  · rw [hchild]
    grind [Side.other_ne]
  · exact (rep_congr fun z hz => hsame z (by grind) (by grind) (by grind) (by grind)).mpr hrx
  · rw [hchild, root_mk]
    grind [Side.other_ne]

/-- Case 1: the red sibling `s` goes up, and its child `b` is the new sibling. -/
theorem eraseCase1_spec (hr : RepAt h (⟨d, c, a, mk d .red u s v⟩ :: k) t)
    (hb : u.root = some b) (hu : u.color = .black)
    (hnd : (plug k (mk d c t a (mk d .red u s v))).inorder.Nodup) :
    ∃ h', h.eraseCase1 d a s = .ok (h', b) ∧
      RepAt h' (⟨d, .red, a, u⟩ :: ⟨d, c, s, v⟩ :: k) t := by
  have hord : (mk d.other c v s (mk d.other .red u a t)).inorder =
      (mk d c t a (mk d .red u s v)).inorder := by
    rw [mk_other, mk_other]
    exact inorder_rotate.symm
  obtain ⟨⟨hap, hac, hat, has, hrs, hrk⟩, ht⟩ := hr
  obtain ⟨hsp, hsc, hsu, hsv, hru, hrv⟩ := rep_mk.mp hrs
  rw [← inorder_plug_congr hord] at hnd
  have hnd' := nodup_mk_mk.mp hnd
  simp only [List.nodup_cons, List.nodup_append, List.mem_cons, List.mem_append, not_or] at hnd'
  have hbu : b ∈ u.inorder := mem_of_root hb
  set h₁ := h.setChild d.other a u.root with hh₁
  set h₂ := h₁.setParentColor b (some a) .black with hh₂
  set h₃ := h₂.setChild d s (some a) with hh₃
  have hout : h.eraseCase1 d a s = .ok (h₃.rotateSetParents a s .red, b) := by
    rw [Heap.eraseCase1, hsu]
    simp only [hb, deref, bind, Except.bind, pure, Except.pure]
    rw [hh₃, hh₂, hh₁, hb]
  have hsame : ∀ z, z ≠ a → z ≠ s → z ≠ b → SameNode h h₃ z := fun z hza hzs hzb =>
    ((sameNode_setChild hza).trans (sameNode_setParentColor hzb)).trans (sameNode_setChild hzs)
  have ha₃ : h₃.parent a = h.parent a ∧ h₃.color a = h.color a := by
    have ha₂ : SameNode h₁ h₂ a := sameNode_setParentColor (by grind)
    exact ⟨ha₂.1, ha₂.2.1⟩
  have hchild : ∀ z f, h₃.child f z = if f = d ∧ z = s then some a else
      if f = d.other ∧ z = a then u.root else h.child f z := by
    intro z f
    simp only [hh₃, hh₂, hh₁, setChild_child, setParentColor_child]
  have hu₃ : Rep h₃ (some a) u := by
    have hu₁ : Rep h₁ (some s) u := (rep_setChild (by grind)).mpr hru
    have hu₂ := hu₁.setParentColorIf (q := some a) (c := .black) (by grind)
    rw [setColor_of_color hu, setParentColorIf_some hb] at hu₂
    exact (rep_setChild (by grind)).mpr hu₂
  refine ⟨_, hout, ?_⟩
  have hmk : mk d c (mk d .red t a u) s v = mk d.other c v s (mk d.other .red u a t) := by
    rw [mk_other, mk_other]
  rw [repAt_cons, repAt_cons]
  show RepAt _ k (mk d c (mk d .red t a u) s v)
  rw [hmk]
  refine rotateSetParents_spec (h := h₃) ?_ (ha₃.1.trans hap) (ha₃.2.trans hac) ?_ ?_ ?_ ?_ ?_ hu₃ ?_
    hnd
  · refine (repPath_congr (fun z hz => hsame z (by grind) (by grind) (by grind)) ?_).mpr hrk
    simp [hh₃, hh₂, hh₁]
  · rw [hchild]
    grind [Side.other_ne]
  · rw [hchild, Side.other_other]
    grind [Side.other_ne]
  · rw [hchild]
    grind [Side.other_ne]
  · rw [hchild, Side.other_other, if_pos ⟨rfl, rfl⟩]
  · exact (rep_congr fun z hz => hsame z (by grind) (by grind) (by grind)).mpr hrv
  · exact (rep_congr fun z hz => hsame z (by grind) (by grind) (by grind)).mpr ht

/-- A write of the color of a node. -/
theorem repAt_setColor {c' : Color} (hr : RepAt h k (mk d c u a v)) (hp : top k = p)
    (hnd : (plug k (mk d c u a v)).inorder.Nodup) :
    RepAt (h.setParentColor a p c') k (mk d c' u a v) := by
  subst hp
  have hnd' := nodes_perm.nodup_iff.mp hnd
  rw [List.nodup_append] at hnd'
  obtain ⟨hn, -, hdisj⟩ := hnd'
  have hak : a ∉ nodes k := fun hmem => hdisj a (mem_of_root root_mk) a hmem rfl
  have hpath := hr.path
  rw [root_mk] at hpath
  refine ⟨?_, hr.sub.setParentColor hn⟩
  rw [root_mk]
  exact (repPath_setParentColor hak).mpr hpath

/-! ## The loop of `__rb_erase_fix` -/

/-- The subtree `t` has `n` black nodes on every way down, where `n + 1` are expected; the sibling
    is black. The loop ends, or goes on at the parent. -/
theorem eraseCases_spec (hr : RepAt h (⟨d, c, a, mk d .black u s v⟩ :: k) t)
    (hbal : Bal n t) (hu : Bal n u) (hv : Bal n v)
    (hfit : Fits c (n + 1 + c.weight) k)
    (hnd : (plug k (mk d c t a (mk d .black u s v))).inorder.Nodup) :
    ∃ h' t', RepAt h' k t' ∧ t'.inorder = (mk d c t a (mk d .black u s v)).inorder ∧
      ((h.eraseCases d a s = .ok (h', none) ∧ (plug k t').color = .black ∧
          ∃ m, Bal m (plug k t')) ∨
        h.eraseCases d a s = .ok (h', top k) ∧ k ≠ [] ∧ c = .black ∧ t'.root = some a ∧
          Bal (n + 1) t') := by
  obtain ⟨hap, hac, hat, has, hrs, hrk⟩ := repPath_cons.mp hr.path
  have hsub : Rep h (some a) t := hr.sub
  obtain ⟨hsp, hsc, hsu, hsv, hru, hrv⟩ := rep_mk.mp hrs
  rw [Heap.eraseCases, hsv, hsu]
  by_cases hvc : v.color = .red
  · -- Case 4: the far child of the sibling is red.
    obtain rfl | ⟨cv, x, f, y, rfl⟩ := eq_mk .left v
    · cases hvc
    have hord : (mk d.other c (mk .left cv x f y) s (mk d.other .black u a t)).inorder =
        (mk d c t a (mk d .black u s (mk .left cv x f y))).inorder := by
      rw [mk_other, mk_other]
      exact inorder_rotate.symm
    rw [← inorder_plug_congr hord] at hnd
    have hrep := eraseCase4_spec hrk hap hac hat hsub hsu hru hsv hrv root_mk hnd
    have hblack : ((mk .left cv x f y).setColor .black).color = .black := by
      rw [setColor_mk, color_mk]
    refine ⟨_, _, hrep, (inorder_mk_congr inorder_setColor rfl).trans hord, .inl ⟨?_, ?_⟩⟩
    · rw [if_pos (hrv.isRed.mpr hvc), root_mk]
      rfl
    · exact Fits.plug (by rwa [color_mk]) (bal_mk.mpr ⟨fun _ => ⟨hblack, color_mk⟩, n + 1, rfl,
        hv.setBlack hvc, bal_black.mpr ⟨hu, hbal⟩⟩)
  have hv' : v.color = .black := Color.eq_black hvc
  rw [if_neg fun hcon => hvc (hrv.isRed.mp hcon)]
  by_cases huc : u.color = .red
  · -- Case 3: only the near child of the sibling is red.
    obtain rfl | ⟨cu, x, b, y, rfl⟩ := eq_mk d u
    · cases huc
    obtain rfl : cu = .red := by rwa [color_mk] at huc
    obtain ⟨hx, hy, hxn, hyn⟩ := bal_red.mp hu
    have hrep := eraseCase3_spec hr hy hnd
    have hord : (mk d.other c (mk d .black y s v) b (mk d.other .black x a t)).inorder =
        (mk d c t a (mk d .black (mk d .red x b y) s v)).inorder := by
      rw [mk_other, mk_other]
      exact inorder_rotate_twice'
    refine ⟨_, _, hrep, hord, .inl ⟨?_, ?_⟩⟩
    · rw [if_pos (hru.isRed.mpr huc), root_mk]
      rfl
    · exact Fits.plug (by rwa [color_mk]) (bal_mk.mpr ⟨fun _ => ⟨color_mk, color_mk⟩, n + 1, rfl,
        bal_black.mpr ⟨hyn, hv⟩, bal_black.mpr ⟨hxn, hbal⟩⟩)
  -- Case 2: the sibling becomes red.
  have hu' : u.color = .black := Color.eq_black huc
  rw [if_neg fun hcon => huc (hru.isRed.mp hcon)]
  set h₁ := h.setParentColor s (some a) .red with hh₁
  have hord : (mk d c t a (mk d .red u s v)).inorder =
      (mk d c t a (mk d .black u s v)).inorder := inorder_mk_congr rfl (inorder_mk_congr rfl rfl)
  have hr₁ : RepAt h₁ k (mk d c t a (mk d .red u s v)) := by
    have hs : RepAt h (⟨d.other, c, a, t⟩ :: k) (mk d .black u s v) := by
      rw [repAt_cons, mk_other]
      exact repAt_cons.mp hr
    have hs₁ : RepAt h₁ (⟨d.other, c, a, t⟩ :: k) (mk d .red u s v) := by
      refine repAt_setColor hs rfl ?_
      rwa [plug_cons, mk_other]
    rw [repAt_cons, mk_other] at hs₁
    exact hs₁
  obtain ⟨ha₁, hc₁, -⟩ := rep_mk.mp hr₁.sub
  have hbal' : Bal (n + 1) (mk d .black t a (mk d .red u s v)) :=
    bal_black.mpr ⟨hbal, bal_red.mpr ⟨hu', hv', hu, hv⟩⟩
  simp only [hc₁, ha₁]
  cases c with
  | red =>
    refine ⟨h₁.setBlack a, mk d .black t a (mk d .red u s v), ?_, ?_, .inl ⟨rfl, ?_⟩⟩
    · rw [setBlack_eq]
      exact repAt_setColor hr₁ ha₁.symm (by rwa [inorder_plug_congr hord])
    · exact inorder_mk_congr rfl (inorder_mk_congr rfl rfl)
    · refine Fits.plug ?_ hbal'
      rw [color_mk]
      exact hfit.black
  | black =>
    refine ⟨h₁, _, hr₁, hord, ?_⟩
    rw [if_neg nofun]
    by_cases hk : k = []
    · subst hk
      exact .inl ⟨rfl, color_mk, n + 1, hbal'⟩
    · exact .inr ⟨rfl, hk, rfl, root_mk, hbal'⟩

/-- The test for the branch of `__rb_erase_fix`. -/
theorem eraseSide_eq (ht : h.child d a = t.root) (hu : h.child d.other a = u.root)
    (hne : u ≠ .leaf) (htu : ∀ x ∈ t.inorder, x ∉ u.inorder) :
    (if t.root ≠ h.child .right a then Side.left else Side.right) = d := by
  cases d with
  | left =>
    have hroot : t.root ≠ h.child .right a := by
      rw [show h.child .right a = u.root from hu]
      intro heq
      obtain rfl | ⟨c, x, b, y, rfl⟩ := eq_mk .left u
      · exact hne rfl
      · rw [root_mk] at heq
        exact htu b (mem_of_root heq) (mem_of_root root_mk)
    rw [if_pos hroot]
  | right => rw [if_neg (not_not.mpr ht.symm)]

/-- Every round either ends the loop or goes up one level. -/
theorem eraseFixLoop_spec {fuel : ℕ} {f : Step α} (hr : RepAt h (f :: k) t)
    (hbal : Bal n t) (hfit : Fits .black (n + 1) (f :: k)) (hnd : (plug (f :: k) t).inorder.Nodup)
    (hfuel : (f :: k).length ≤ fuel) :
    ∃ h' t', h.eraseFixLoop fuel t.root f.node = .ok h' ∧ RepAt h' [] t' ∧
      t'.inorder = (plug (f :: k) t).inorder ∧ t'.color = .black ∧ ∃ m, Bal m t' := by
  induction fuel generalizing h k t n f with
  | zero => simp at hfuel
  | succ fuel ih =>
    obtain ⟨d, c, a, w⟩ := f
    obtain ⟨hred, hw, hfk⟩ := hfit
    obtain ⟨hap, hac, hat, haw, hrw, hrk⟩ := repPath_cons.mp hr.path
    have hdisj : ∀ x ∈ t.inorder, x ∉ w.inorder := by
      have hnd' := nodes_perm.nodup_iff.mp hnd
      rw [List.nodup_append] at hnd'
      exact fun x hx hxw => hnd'.2.2 x hx x
        (List.mem_cons_of_mem _ (List.mem_append_left _ hxw)) rfl
    have hside := eraseSide_eq hat haw hw.ne_leaf hdisj
    have hlen : k.length ≤ fuel := by
      rw [List.length_cons] at hfuel
      omega
    obtain rfl | ⟨cw, u, s, v, rfl⟩ := eq_mk d w
    · exact absurd rfl hw.ne_leaf
    rw [root_mk] at haw
    show ∃ h' t', h.eraseFixLoop (fuel + 1) t.root a = _ ∧ _
    rw [Heap.eraseFixLoop, hside, haw]
    simp only [deref, bind, Except.bind]
    obtain ⟨-, hsc, -, -, hru, -⟩ := rep_mk.mp hrw
    simp only [hsc]
    cases cw with
    | red =>
      -- Case 1: the parent is black, and red afterwards, so that the loop ends.
      obtain rfl : c = .black := by
        refine Color.eq_black fun hcr => ?_
        have hcon := (hred hcr).2
        rw [color_mk] at hcon
        cases hcon
      obtain ⟨huc, hvc, hun, hvn⟩ := bal_red.mp hw
      obtain rfl | ⟨cu, x, b, y, rfl⟩ := eq_mk d u
      · exact absurd rfl hun.ne_leaf
      obtain rfl : cu = .black := by rwa [color_mk] at huc
      obtain ⟨h₁, hcase, hr₁⟩ := eraseCase1_spec hr root_mk huc hnd
      obtain ⟨hxn, hyn⟩ := bal_black.mp hun
      have hfit₁ : Fits .red (n + 1 + Color.red.weight) (⟨d, .black, s, v⟩ :: k) :=
        fits_black.mpr ⟨hvn, hfk⟩
      have hord : (plug k (mk d .black (mk d .red t a (mk d .black x b y)) s v)).inorder =
          (plug k (mk d .black t a (mk d .red (mk d .black x b y) s v))).inorder :=
        inorder_plug_congr inorder_rotate.symm
      have hnd₁ : (plug (⟨d, .black, s, v⟩ :: k) (mk d .red t a (mk d .black x b y))).inorder.Nodup := by
        rw [plug_cons, hord]
        exact hnd
      rw [if_pos rfl, hcase]
      obtain ⟨h₂, t₂, hr₂, hord₂, hout | hout⟩ := eraseCases_spec hr₁ hbal hxn hyn hfit₁ hnd₁
      · obtain ⟨hout, hblack, hbal₂⟩ := hout
        simp only [hout, pure, Except.pure]
        exact ⟨_, _, rfl, repAt_plug.mp hr₂, (inorder_plug_congr hord₂).trans hord, hblack, hbal₂⟩
      · cases hout.2.2.1
    | black =>
      rw [if_neg nofun]
      obtain ⟨hu, hv⟩ := bal_black.mp hw
      obtain ⟨h₁, t₁, hr₁, hord₁, hout | hout⟩ := eraseCases_spec hr hbal hu hv hfk hnd
      · obtain ⟨hout, hblack, hbal₁⟩ := hout
        simp only [hout, pure, Except.pure]
        exact ⟨_, _, rfl, repAt_plug.mp hr₁, inorder_plug_congr hord₁, hblack, hbal₁⟩
      · obtain ⟨hout, hk, rfl, hroot₁, hbal₁⟩ := hout
        obtain ⟨g, k, rfl⟩ := List.exists_cons_of_ne_nil hk
        rw [top_cons] at hout
        have hnd₁ : (plug (g :: k) t₁).inorder.Nodup := by
          rw [inorder_plug_congr hord₁]
          exact hnd
        obtain ⟨h', t', hloop, hr', hord', hend⟩ := ih hr₁ hbal₁ hfk hnd₁ hlen
        rw [hroot₁] at hloop
        simp only [hout, hloop]
        exact ⟨h', t', rfl, hr', hord'.trans (inorder_plug_congr hord₁), hend⟩

/-! ## A part of a path -/

/-- The fields of the nodes of a path that leads from below `q` down to `p`. -/
def RepSeg (h : Heap α) (q : Option α) : Option α → Path α → Prop
  | _, [] => True
  | p, f :: k => h.parent f.node = (top k).or q ∧ h.color f.node = f.color ∧
      h.child f.side f.node = p ∧ h.child f.side.other f.node = f.sibling.root ∧
      Rep h (some f.node) f.sibling ∧ RepSeg h q (some f.node) k

omit [DecidableEq α] in
theorem rep_plug : Rep h q (plug k t) ↔ RepSeg h q t.root k ∧ Rep h ((top k).or q) t := by
  induction k generalizing t with
  | nil => exact (true_and _).to_iff.symm
  | cons f k ih =>
    rw [plug_cons, ih, rep_mk, root_mk]
    simp only [RepSeg, top_cons, Option.some_or]
    tauto

omit [DecidableEq α] in
theorem repSeg_congr {h' : Heap α} (heq : ∀ a ∈ nodes k, SameNode h h' a) :
    RepSeg h' q p k ↔ RepSeg h q p k := by
  induction k generalizing p with
  | nil => exact Iff.rfl
  | cons f k ih =>
    have hs : ∀ b ∈ f.sibling.inorder, SameNode h h' b := fun b hb =>
      heq b (List.mem_cons_of_mem _ (List.mem_append_left _ hb))
    have hk : ∀ b ∈ nodes k, SameNode h h' b := fun b hb =>
      heq b (List.mem_cons_of_mem _ (List.mem_append_right _ hb))
    obtain ⟨h1, h2, h3⟩ := heq f.node List.mem_cons_self
    simp only [RepSeg, h1, h2, h3, rep_congr hs, ih hk]

/-- Another subtree at the lower end. -/
theorem RepSeg.relink {f : Step α} {x : Option α} (hr : RepSeg h q p (f :: k))
    (hnd : (nodes (f :: k)).Nodup) :
    RepSeg (h.setChild f.side f.node x) q x (f :: k) := by
  rw [nodes_cons, List.nodup_cons, List.mem_append, not_or] at hnd
  obtain ⟨h1, h2, -, h4, h5, h6⟩ := hr
  refine ⟨h1, h2, ?_, ?_, (rep_setChild hnd.1.1).mpr h5, ?_⟩
  · rw [setChild_child, if_pos ⟨rfl, rfl⟩]
  · rw [setChild_child, if_neg fun he => Side.other_ne _ he.1]
    exact h4
  · refine (repSeg_congr fun b hb => sameNode_setChild ?_).mpr h6
    rintro rfl
    exact hnd.1.2 hb

/-- Another parent at the upper end. -/
theorem RepSeg.reroot {f : Step α} {q' : Option α} (hr : RepSeg h q p (k ++ [f]))
    (hnd : (nodes (k ++ [f])).Nodup) :
    RepSeg (h.setParent f.node q') q' p (k ++ [f]) := by
  rw [setParent_eq]
  induction k generalizing p with
  | nil =>
    rw [List.nil_append, nodes_cons, List.nodup_cons, List.mem_append, not_or] at hnd
    obtain ⟨-, h2, h3, h4, h5, -⟩ := hr
    refine ⟨?_, ?_, h3, h4, (rep_setParentColor hnd.1.1).mpr h5, trivial⟩
    · rw [setParentColor_parent, if_pos rfl]
      rfl
    · rw [setParentColor_color, if_pos rfl, h2]
  | cons g k ih =>
    rw [List.cons_append, nodes_cons, List.nodup_cons, List.nodup_append, List.mem_append,
      not_or] at hnd
    obtain ⟨⟨hgs, hgk⟩, -, hk, hdisj⟩ := hnd
    obtain ⟨h1, h2, h3, h4, h5, h6⟩ : RepSeg h q p (g :: (k ++ [f])) := hr
    have hf : f.node ∈ nodes (k ++ [f]) := by
      rw [nodes_append]
      exact List.mem_append_right _ List.mem_cons_self
    have hgf : g.node ≠ f.node := fun heq => hgk (heq ▸ hf)
    have hfs : f.node ∉ g.sibling.inorder := fun hmem => hdisj _ hmem _ hf rfl
    have htop : ∀ q, (top (k ++ [f])).or q = top (k ++ [f]) := fun q => by
      cases k <;> rfl
    show RepSeg _ _ _ (g :: (k ++ [f]))
    refine ⟨?_, ?_, h3, h4, (rep_setParentColor hfs).mpr h5, ih h6 hk⟩
    · rw [setParentColor_parent, if_neg hgf, h1, htop, htop]
    · rw [setParentColor_color, if_neg hgf, h2]

/-! ## The successor -/

omit [DecidableEq α] in
/-- The leftmost node `s` of the subtree `t` below `b`, and its parent. -/
theorem successorLoop_spec {fuel : ℕ} {x : α} (hr : Rep h (some b) t) (hx : t.root = some x)
    (hfuel : t.inorder.length ≤ fuel) :
    ∃ k c s u m, t = plug k (.node c .leaf s u) ∧ before k = [] ∧
      h.successorLoop fuel b x = .ok (m, s) ∧ (top k).or (some b) = some m := by
  induction t generalizing b x fuel with
  | leaf => cases hx
  | node c l y r ihl =>
    cases hx
    have hlen : (node c l y r).inorder.length = l.inorder.length + (r.inorder.length + 1) := by
      rw [RbTree.inorder, List.length_append, List.length_cons]
    obtain ⟨fuel, rfl⟩ := Nat.exists_eq_add_of_le' (show 1 ≤ fuel by omega)
    obtain ⟨-, -, hl, -, hrl, -⟩ := hr
    cases l with
    | leaf =>
      refine ⟨[], c, y, r, b, rfl, rfl, ?_, rfl⟩
      rw [Heap.successorLoop, hl]
      rfl
    | node cl ll z lr =>
      have hfuel' : (node cl ll z lr).inorder.length ≤ fuel := by omega
      obtain ⟨k, c', s, u, m, htree, hbefore, hloop, hm⟩ := ihl hrl rfl hfuel'
      refine ⟨k ++ [⟨.left, c, y, r⟩], c', s, u, m, ?_, ?_, ?_, ?_⟩
      · rw [plug_append, ← htree]
        rfl
      · rw [before_append, hbefore]
        rfl
      · rw [Heap.successorLoop, hl]
        exact hloop
      · rw [← hm]
        cases k <;> rfl

/-- The successor `s`, already cut out of the right subtree, goes to the place of `a`. The root of
    its old subtree `u` still has to get its parent `m`. -/
theorem replaceBySuccessor_spec {l : RbTree α} {m : α} {k' : Path α} {c' : Color}
    (hp : RepPath h (some a) k) (hap : h.parent a = top k) (hac : h.color a = c)
    (hal : h.child .left a = l.root) (hl : Rep h (some a) l) (hb : l.root = some b)
    (hseg : RepSeg h (some s) u.root k') (hu : Rep h q u)
    (hright : h.child .right s = (plug k' u).root) (hsc : h.color s = c')
    (hm : (top k').or (some s) = some m)
    (hnd : (s :: a :: (u.inorder ++ (nodes k' ++ (l.inorder ++ nodes k)))).Nodup) :
    ∃ h', h.replaceBySuccessor a m s u.root =
        .ok (h', if u.root = none ∧ c' = .black then some m else none) ∧
      RepAt h' k (mk .right c (plug k' (u.setColor .black)) s l) := by
  simp only [List.nodup_cons, List.nodup_append, List.mem_cons, List.mem_append, not_or] at hnd
  have hbl : b ∈ l.inorder := mem_of_root hb
  set h₁ := h.setChild .left s l.root with hh₁
  set h₂ := h₁.setParent b (some s) with hh₂
  set h₃ := h₂.changeChild a (some s) (top k) with hh₃
  set h₄ := h₃.setParentColor s (top k) c with hh₄
  set h₅ := h₄.setParentColorIf u.root (some m) .black with hh₅
  have hset : h₂ = h₁.setParentIf l.root (some s) := by rw [hb]; rfl
  have htop : ∀ x, x ∉ nodes k → top k ≠ some x := fun x hx heq => hx (mem_of_top heq)
  have hsame₂ : ∀ x, x ≠ s → x ≠ b → SameNode h h₂ x := fun x hxs hxb => by
    rw [hh₂, setParent_eq]
    exact (sameNode_setChild hxs).trans (sameNode_setParentColor hxb)
  have hsame : ∀ x, x ≠ s → x ≠ b → x ∉ nodes k → x ∉ u.inorder → SameNode h h₅ x :=
    fun x hxs hxb hxk hxu => (((hsame₂ x hxs hxb).trans (changeChild_sameNode (htop x hxk))).trans
      (sameNode_setParentColor hxs)).trans (sameNode_setParentColorIf hxu)
  have ha₂ : h₂.parent a = top k ∧ h₂.color a = c := by
    obtain ⟨h1, h2, -⟩ := hsame₂ a (by grind) (by grind)
    exact ⟨h1.trans hap, h2.trans hac⟩
  have hs₃ : h₃.color s = c' := by
    have hs : SameNode h₂ h₃ s := changeChild_sameNode (htop s (by grind))
    have hsb : s ≠ b := by grind
    rw [hs.2.1, ← hsc, hh₂, setParent_eq, setParentColor_color, if_neg hsb]
    rfl
  have hout : h.replaceBySuccessor a m s u.root =
      .ok (h₅, if u.root = none ∧ c' = .black then some m else none) := by
    rw [Heap.replaceBySuccessor]
    simp only [hal, hb, deref, bind, Except.bind, pure, Except.pure]
    rw [← hb, ← hh₁, ← hh₂, ha₂.1, ha₂.2, ← hh₃, hs₃, ← hh₄, hh₅]
    cases u with
    | leaf => simp [Heap.setParentColorIf]
    | node cu ul x ur => simp [Heap.setParentColorIf, RbTree.root]
  have hpath : RepPath h₅ (some s) k := by
    have hpath₂ : RepPath h₂ (some a) k := by
      refine (repPath_congr (fun x hx => hsame₂ x (by grind) (by grind)) rfl).mpr hp
    have hpath₃ : RepPath h₃ (some s) k := hpath₂.changeChild (by grind)
    have hpath₄ : RepPath h₄ (some s) k := (repPath_setParentColor (by grind)).mpr hpath₃
    refine (repPath_congr (fun x hx => sameNode_setParentColorIf (by grind)) ?_).mpr hpath₄
    exact setParentColorIf_root
  have hchild : ∀ f, h₅.child f s = h₁.child f s := by
    intro f
    have hs : SameNode h₂ h₃ s := changeChild_sameNode (htop s (by grind))
    rw [hh₅, setParentColorIf_child, hh₄, setParentColor_child, hs.2.2]
    rfl
  have hs₅ : h₅.parent s = top k ∧ h₅.color s = c := by
    have hs : SameNode h₄ h₅ s := sameNode_setParentColorIf (by grind)
    rw [hs.1, hs.2.1, hh₄, setParentColor_parent, setParentColor_color, if_pos rfl, if_pos rfl]
    exact ⟨rfl, rfl⟩
  have hl₅ : Rep h₅ (some s) l := by
    have hl₁ : Rep h₁ (some a) l := (rep_setChild (by grind)).mpr hl
    have hl₂ : Rep h₂ (some s) l := hset ▸ hl₁.setParentIf (by grind)
    refine (rep_congr fun x hx => ?_).mpr hl₂
    exact ((changeChild_sameNode (htop x (by grind))).trans
      (sameNode_setParentColor (by grind))).trans (sameNode_setParentColorIf (by grind))
  have hu₅ : Rep h₅ (some m) (u.setColor .black) := by
    have hu₄ : Rep h₄ q u := by
      refine (rep_congr fun x hx => ?_).mpr hu
      exact ((hsame₂ x (by grind) (by grind)).trans
        (changeChild_sameNode (htop x (by grind)))).trans (sameNode_setParentColor (by grind))
    exact hu₄.setParentColorIf (by grind)
  have hseg₅ : RepSeg h₅ (some s) u.root k' :=
    (repSeg_congr fun x hx => hsame x (by grind) (by grind) (by grind) (by grind)).mpr hseg
  refine ⟨h₅, hout, ?_, rep_mk.mpr ⟨hs₅.1, hs₅.2, ?_, ?_, ?_, hl₅⟩⟩
  · rw [root_mk]
    exact hpath
  · rw [hchild, hh₁, setChild_child, if_neg fun hcon => Side.noConfusion hcon.1, hright]
    exact root_plug_congr root_setColor.symm
  · rw [hchild, hh₁, setChild_child, if_pos ⟨rfl, rfl⟩]
  · rw [rep_plug, root_setColor, hm]
    exact ⟨hseg₅, hu₅⟩

/-! ## `__rb_erase` -/

/-- What `__rb_erase` leaves: a balanced tree of the nodes `l`, or one in which a black node is
    missing at a leaf below `rebalance`. -/
def Erased (h : Heap α) (rebalance : Option α) (l : List α) : Prop :=
  ∃ k t, RepAt h k t ∧ (plug k t).inorder = l ∧
    ((rebalance = none ∧ (plug k t).color = .black ∧ ∃ m, Bal m (plug k t)) ∨
      ∃ f k', k = f :: k' ∧ rebalance = some f.node ∧ t = .leaf ∧ Fits .black 1 k)

omit [DecidableEq α] in
/-- A node `s` with one child `u` at most has made place for that child, now black. -/
theorem erased_of (hr : RepAt h k (u.setColor .black)) (hfit : Fits c n k)
    (hbal : Bal n (mk d c .leaf s u)) :
    Erased h (if u.root = none ∧ c = .black then top k else none) (plug k u).inorder := by
  obtain ⟨hred, m, rfl, hm, hu⟩ := bal_mk.mp hbal
  rw [bal_leaf] at hm
  subst hm
  refine ⟨k, u.setColor .black, hr, inorder_plug_congr inorder_setColor, ?_⟩
  obtain rfl | ⟨cu, x, b, y, rfl⟩ := eq_mk .left u
  · show _ ∨ _
    cases c with
    | red =>
      rw [if_neg fun hcon => nomatch hcon.2]
      exact .inl ⟨rfl, Fits.plug hfit.black hu⟩
    | black =>
      rw [if_pos ⟨rfl, rfl⟩]
      cases k with
      | nil => exact .inl ⟨rfl, rfl, 0, hu⟩
      | cons f k => exact .inr ⟨f, k, rfl, rfl, rfl, hfit⟩
  · -- The child is red, and the node black.
    have hcu : cu = .red := by
      cases cu with
      | red => rfl
      | black =>
        obtain ⟨m, hm, -⟩ := bal_black_iff.mp hu
        omega
    subst hcu
    have hc : c = .black := by
      refine Color.eq_black fun hcr => ?_
      have hcon := (hred hcr).2
      rw [color_mk] at hcon
      cases hcon
    subst hc
    rw [root_mk, if_neg fun hcon => nomatch hcon.1]
    refine .inl ⟨rfl, Fits.plug ?_ (hu.setBlack color_mk)⟩
    rw [setColor_mk, color_mk]
    exact hfit

omit [DecidableEq α] in
/-- The only child of a node is red, so that it becomes black with the color of its parent. -/
theorem setColor_only_child (hbal : Bal n (mk d c .leaf s u)) :
    u.setColor c = u.setColor .black := by
  obtain ⟨hred, m, rfl, hm, hu⟩ := bal_mk.mp hbal
  rw [bal_leaf] at hm
  subst hm
  cases c with
  | black => rfl
  | red =>
    obtain rfl | ⟨cu, x, b, y, rfl⟩ := eq_mk .left u
    · rfl
    · have hcu := (hred rfl).2
      rw [color_mk] at hcu
      subst hcu
      obtain ⟨m, hm, -⟩ := bal_black_iff.mp hu
      omega

/-- A node with one child at most: the child `u` goes to its place. -/
theorem eraseNode_one (fuel : ℕ) (hr : RepAt h k (mk d c .leaf a u)) (hfit : Fits c n k)
    (hbal : Bal n (mk d c .leaf a u)) (hnd : (plug k (mk d c .leaf a u)).inorder.Nodup) :
    ∃ h' rebalance, h.eraseNode fuel a = .ok (h', rebalance) ∧
      Erased h' rebalance (plug k u).inorder := by
  have hnd' := nodes_perm.nodup_iff.mp hnd
  rw [(inorder_mk_perm.append_right _).nodup_iff] at hnd'
  simp only [inorder_leaf, List.nil_append, List.cons_append, List.nodup_cons, List.nodup_append,
    List.mem_append, not_or] at hnd'
  have hpath := hr.path
  rw [root_mk] at hpath
  obtain ⟨hap, hac, hal, hau, -, hru⟩ := rep_mk.mp hr.sub
  have hdisj : ∀ x ∈ u.inorder, x ∉ nodes k := by grind
  have hdisj' : ∀ x ∈ nodes k, x ∉ u.inorder := by grind
  have hset := setColor_only_child hbal
  -- In both orders of the two writes the child ends in the place of the node.
  have hr₁ : RepAt ((h.changeChild a u.root (top k)).setParentColorIf u.root (top k) c) k
      (u.setColor .black) := by
    have hp₁ : RepPath (h.changeChild a u.root (top k)) u.root k :=
      hpath.changeChild (by grind)
    have hu₁ : Rep (h.changeChild a u.root (top k)) (some a) u := (rep_changeChild hdisj).mpr hru
    refine ⟨?_, hset ▸ hu₁.setParentColorIf (by grind)⟩
    rw [root_setColor]
    refine (repPath_congr (fun x hx => sameNode_setParentColorIf (hdisj' x hx)) ?_).mpr hp₁
    exact setParentColorIf_root
  have hr₂ : RepAt ((h.setParentColorIf u.root (top k) c).changeChild a u.root (top k)) k
      (u.setColor .black) := by
    have hp₂ : RepPath (h.setParentColorIf u.root (top k) c) (some a) k := by
      refine (repPath_congr (fun x hx => sameNode_setParentColorIf (hdisj' x hx)) ?_).mpr hpath
      exact setParentColorIf_root
    have hu₂ : Rep (h.setParentColorIf u.root (top k) c) (top k) (u.setColor c) :=
      hru.setParentColorIf (by grind)
    refine ⟨?_, ?_⟩
    · rw [root_setColor]
      exact hp₂.changeChild (by grind)
    · rw [← hset]
      refine (rep_changeChild fun x hx => ?_).mpr hu₂
      rw [inorder_setColor] at hx
      exact hdisj x hx
  have herased₁ := erased_of hr₁ hfit hbal
  have herased₂ := erased_of hr₂ hfit hbal
  cases d with
  | left =>
    have hleft : h.child .left a = none := hal
    have hright : h.child .right a = u.root := hau
    refine ⟨_, _, ?_, herased₁⟩
    rw [Heap.eraseNode, hleft, hright, hap, hac]
    cases u with
    | leaf => simp [Heap.setParentColorIf]
    | node cu ul x ur => simp [Heap.setParentColorIf, RbTree.root]
  | right =>
    have hright : h.child .right a = none := hal
    have hleft : h.child .left a = u.root := hau
    rw [Heap.eraseNode, hleft, hright, hap, hac]
    cases u with
    | leaf =>
      refine ⟨_, _, rfl, ?_⟩
      simpa [Heap.setParentColorIf] using herased₁
    | node cu ul x ur =>
      refine ⟨_, _, rfl, ?_⟩
      simpa [Heap.setParentColorIf, RbTree.root] using herased₂

section TwoChildren

variable {l r : RbTree α} {k' : Path α} {c' : Color}

omit [DecidableEq α] in
/-- The nodes of the right subtree around the successor `s`. -/
theorem nodup_successor (hr : r = plug k' (.node c' .leaf s u))
    (hnd : (plug k (.node c l a r)).inorder.Nodup) :
    (s :: a :: (u.inorder ++ (nodes k' ++ (l.inorder ++ nodes k)))).Nodup := by
  have hplug : plug k (.node c l a r) = plug (k' ++ ⟨.right, c, a, l⟩ :: k) (.node c' .leaf s u) := by
    rw [plug_append, ← hr]
    rfl
  rw [hplug] at hnd
  refine (List.Perm.nodup_iff ?_).mp hnd
  refine nodes_perm.trans ?_
  rw [nodes_append, nodes_cons]
  have hmiddle : ((u.inorder ++ nodes k') ++ a :: (l.inorder ++ nodes k)).Perm
      (a :: ((u.inorder ++ nodes k') ++ (l.inorder ++ nodes k))) := List.perm_middle
  rw [List.append_assoc, List.append_assoc] at hmiddle
  exact hmiddle.cons s

omit [DecidableEq α] in
/-- The tree in which the successor `s` is in the place of `a`. -/
theorem erased_successor {h' : Heap α} {m : α} (hr : r = plug k' (.node c' .leaf s u))
    (hbefore : before k' = []) (hm : (top k').or (some s) = some m)
    (hrep : RepAt h' k (mk .right c (plug k' (u.setColor .black)) s l)) (hfit : Fits c n k)
    (hbal : Bal n (.node c l a r)) :
    Erased h' (if u.root = none ∧ c' = .black then some m else none)
      (before k ++ (l.inorder ++ r.inorder) ++ after k) := by
  have hplug : plug k (.node c l a r) = plug (k' ++ ⟨.right, c, a, l⟩ :: k) (.node c' .leaf s u) := by
    rw [plug_append, ← hr]
    rfl
  obtain ⟨hblack, m', hm'⟩ := Fits.plug (t := .node c l a r) hfit hbal
  rw [hplug] at hblack hm'
  obtain ⟨i, hi, hfit'⟩ := Fits.of_plug hblack hm'
  have hat : RepAt h' (k' ++ ⟨.right, c, s, l⟩ :: k) (u.setColor .black) := by
    rw [repAt_append, repAt_cons]
    exact hrep
  have herased := erased_of (d := .left) hat hfit'.node hi
  have htop : top (k' ++ ⟨.right, c, s, l⟩ :: k) = some m := by
    rw [← hm]
    cases k' <;> rfl
  have hord : (plug (k' ++ ⟨.right, c, s, l⟩ :: k) u).inorder =
      before k ++ (l.inorder ++ r.inorder) ++ after k := by
    rw [plug_append, plug_cons, inorder_plug, hr, inorder_plug, hbefore]
    simp only [mk, RbTree.inorder, inorder_plug, hbefore, List.nil_append, List.cons_append]
  rw [htop, hord] at herased
  exact herased

/-- A node with two children: the successor goes to its place. -/
theorem eraseNode_two {fuel : ℕ} (hr : RepAt h k (.node c l a r)) (hl : l ≠ .leaf)
    (hrl : r ≠ .leaf) (hfit : Fits c n k) (hbal : Bal n (.node c l a r))
    (hnd : (plug k (.node c l a r)).inorder.Nodup)
    (hfuel : (plug k (.node c l a r)).inorder.length ≤ fuel) :
    ∃ h' rebalance, h.eraseNode fuel a = .ok (h', rebalance) ∧
      Erased h' rebalance (before k ++ (l.inorder ++ r.inorder) ++ after k) := by
  have hpath : RepPath h (some a) k := hr.path
  obtain ⟨hap, hac, hal, har, hll, hrr⟩ := hr.sub
  obtain rfl | ⟨cl, ll, b, lr, rfl⟩ := eq_mk .left l
  · exact absurd rfl hl
  obtain rfl | ⟨cr, rl, y, rr, rfl⟩ := eq_mk .left r
  · exact absurd rfl hrl
  obtain ⟨hyp, hyc, hyl, hyr, hrl', hrr'⟩ := id hrr
  rw [Heap.eraseNode, hal, har, root_mk, root_mk]
  simp only [hyl]
  cases rl with
  | leaf =>
    -- The right child is the successor.
    have hsub : mk .left cr .leaf y rr = plug [] (.node cr .leaf y rr) := rfl
    have hseg : RepSeg h (some y) rr.root [] := trivial
    obtain ⟨h', hout, hrep⟩ := replaceBySuccessor_spec hpath hap hac hal hll root_mk hseg hrr' hyr
      hyc rfl (nodup_successor hsub hnd)
    refine ⟨h', _, ?_, erased_successor hsub rfl rfl hrep hfit hbal⟩
    rw [← hout, hyr]
    rfl
  | node crl rll z rlr =>
    -- The successor is further down on the left.
    have hlen : (node crl rll z rlr).inorder.length ≤ fuel := by
      rw [nodes_perm.length_eq, List.length_append] at hfuel
      simp only [mk, RbTree.inorder, List.length_append, List.length_cons] at hfuel ⊢
      omega
    obtain ⟨k₁, c₁, s, u, m, htree, hbefore, hloop, hm⟩ := successorLoop_spec hrl' rfl hlen
    obtain ⟨k₂, hk₂⟩ : ∃ k₂, k₂ = k₁ ++ [⟨.left, cr, y, rr⟩] := ⟨_, rfl⟩
    have hsub : mk .left cr (node crl rll z rlr) y rr = plug k₂ (.node c₁ .leaf s u) := by
      rw [hk₂, plug_append, ← htree]
      rfl
    have htop : top k₂ = some m := by
      rw [← hm, hk₂]
      cases k₁ <;> rfl
    have hbefore₂ : before k₂ = [] := by
      rw [hk₂, before_append, hbefore]
      rfl
    have hnd' := nodup_successor hsub hnd
    simp only [List.nodup_cons, List.nodup_append, List.mem_cons, List.mem_append, not_or] at hnd'
    have hmk : m ∈ nodes k₂ := mem_of_top htop
    have hyk : y ∈ nodes k₂ := by
      rw [hk₂, nodes_append]
      exact List.mem_append_right _ List.mem_cons_self
    rw [hsub, rep_plug, htop] at hrr
    obtain ⟨hseg, -, hsc, -, hsu, -, hru⟩ := hrr
    set h₁ := h.setChild .left m u.root with hh₁
    set h₂ := h₁.setChild .right s (some y) with hh₂
    set h₃ := h₂.setParent y (some s) with hh₃
    have hsame : ∀ x, x ≠ m → x ≠ s → x ≠ y → SameNode h h₃ x := fun x hxm hxs hxy => by
      rw [hh₃, setParent_eq]
      exact ((sameNode_setChild hxm).trans (sameNode_setChild hxs)).trans
        (sameNode_setParentColor hxy)
    have hseg₃ : RepSeg h₃ (some s) u.root k₂ := by
      have hseg₁ : RepSeg h₁ (some a) u.root k₂ := by
        cases k₂ with
        | nil => cases htop
        | cons f k₂ =>
          obtain rfl : f.node = m := Option.some.inj htop
          rw [hh₁, ← left_of_before hbefore₂]
          exact hseg.relink hnd'.2.2.2.1.1
      have hseg₂ : RepSeg h₂ (some a) u.root k₂ :=
        (repSeg_congr fun x hx => sameNode_setChild (by grind)).mpr hseg₁
      rw [hk₂] at hseg₂ ⊢
      exact hseg₂.reroot (hk₂ ▸ hnd'.2.2.2.1.1)
    have ha₃ : SameNode h h₃ a := hsame a (by grind) (by grind) (by grind)
    have hs₃ : h₃.color s = c₁ := by
      have hsy : s ≠ y := by grind
      rw [hh₃, setParent_eq, setParentColor_color, if_neg hsy, ← hsc]
      rfl
    have hright : h₃.child .right s = (plug k₂ u).root := by
      rw [hk₂, root_plug_concat]
      show h₂.child .right s = some y
      rw [hh₂, setChild_child, if_pos ⟨rfl, rfl⟩]
    have hpath₃ : RepPath h₃ (some a) k :=
      (repPath_congr (fun x hx => hsame x (by grind) (by grind) (by grind)) rfl).mpr hpath
    have hll₃ : Rep h₃ (some a) (mk .left cl ll b lr) :=
      (rep_congr fun x hx => hsame x (by grind) (by grind) (by grind)).mpr hll
    have hru₃ : Rep h₃ (some s) u :=
      (rep_congr fun x hx => hsame x (by grind) (by grind) (by grind)).mpr hru
    have hm₂ : (top k₂).or (some s) = some m := by rw [htop]; rfl
    obtain ⟨h', hout, hrep⟩ := replaceBySuccessor_spec hpath₃ (ha₃.1.trans hap)
      (ha₃.2.1.trans hac) ((ha₃.2.2 _).trans hal) hll₃ root_mk hseg₃ hru₃ hright hs₃ hm₂
      (nodup_successor hsub hnd)
    refine ⟨h', _, ?_, erased_successor hsub hbefore₂ hm₂ hrep hfit hbal⟩
    rw [← hout]
    have hz : (node crl rll z rlr).root = some z := rfl
    simp only [hz, hloop, bind, Except.bind]
    show Heap.replaceBySuccessor (((h.setChild .left m (h.child .right s)).setChild .right s
      (some y)).setParent y (some s)) a m s (h.child .right s) = _
    rw [hsu]

end TwoChildren

theorem eraseNode_spec {fuel : ℕ} {l r : RbTree α} (hr : RepAt h k (.node c l a r))
    (hfit : Fits c n k) (hbal : Bal n (.node c l a r))
    (hnd : (plug k (.node c l a r)).inorder.Nodup)
    (hfuel : (plug k (.node c l a r)).inorder.length ≤ fuel) :
    ∃ h' rebalance, h.eraseNode fuel a = .ok (h', rebalance) ∧
      Erased h' rebalance (before k ++ (l.inorder ++ r.inorder) ++ after k) := by
  by_cases hl : l = .leaf
  · subst hl
    have hone := eraseNode_one (d := .left) (u := r) fuel hr hfit hbal hnd
    rwa [inorder_plug] at hone
  by_cases hrl : r = .leaf
  · subst hrl
    have hmk : node c l a leaf = mk .right c .leaf a l := rfl
    rw [hmk] at hr hbal hnd
    have hone := eraseNode_one fuel hr hfit hbal hnd
    rwa [inorder_plug, ← List.append_nil l.inorder] at hone
  exact eraseNode_two hr hl hrl hfit hbal hnd hfuel

/-- Erasure keeps the shape, whatever the order: no null pointer is followed, the call ends, and
    the tree is red-black again, without `a`. -/
theorem rbErase_redBlack {fuel : ℕ} (ht : IsRedBlack h t) (ha : a ∈ t.inorder)
    (hfuel : t.inorder.length ≤ fuel) :
    ∃ h' t', h.rbErase fuel a = .ok h' ∧ IsRedBlack h' t' ∧
      t'.inorder.Sublist t.inorder ∧ ∀ x, x ∈ t'.inorder ↔ x ≠ a ∧ x ∈ t.inorder := by
  obtain ⟨k, c, l, r, rfl⟩ := exists_path ha
  obtain ⟨n, hn⟩ := ht.bal
  obtain ⟨m, hm, hfit⟩ := Fits.of_plug ht.black hn
  have hnd := ht.nodup
  obtain ⟨h₁, rebalance, hout, k₁, t₁, hr₁, hord₁, hcase⟩ :=
    eraseNode_spec (repAt_plug.mpr ht.rep) hfit hm hnd hfuel
  have hold : (plug k (node c l a r)).inorder =
      (before k ++ l.inorder) ++ a :: (r.inorder ++ after k) := by
    rw [inorder_plug, RbTree.inorder]
    simp only [List.append_assoc, List.cons_append]
  have hnew : before k ++ (l.inorder ++ r.inorder) ++ after k =
      (before k ++ l.inorder) ++ (r.inorder ++ after k) := by
    simp only [List.append_assoc]
  rw [hnew] at hord₁
  have hsub : (plug k₁ t₁).inorder.Sublist (plug k (node c l a r)).inorder := by
    rw [hord₁, hold]
    exact (List.Sublist.refl _).append (List.sublist_cons_self _ _)
  have hnd₁ : (plug k₁ t₁).inorder.Nodup := hnd.sublist hsub
  have hmem : ∀ x, x ∈ (plug k₁ t₁).inorder ↔ x ≠ a ∧ x ∈ (plug k (node c l a r)).inorder := by
    intro x
    rw [hold] at hnd ⊢
    rw [hord₁]
    have hnot := (List.nodup_middle.mp hnd)
    rw [List.nodup_cons] at hnot
    have ha' : x ∈ (before k ++ l.inorder) ++ (r.inorder ++ after k) → x ≠ a := by
      rintro hx rfl
      exact hnot.1 hx
    simp only [List.mem_append, List.mem_cons] at ha' ⊢
    tauto
  rcases hcase with ⟨rfl, hblack, hbal⟩ | ⟨f, k₂, rfl, rfl, rfl, hfit₁⟩
  · refine ⟨h₁, plug k₁ t₁, ?_, ⟨repAt_plug.mp hr₁, hnd₁, hblack, hbal⟩, hsub, hmem⟩
    simp only [Heap.rbErase, hout, bind, Except.bind, pure, Except.pure]
  · have hlen : (f :: k₂).length ≤ fuel :=
      (length_le_plug.trans hsub.length_le).trans hfuel
    obtain ⟨h', t', hloop, hr', hord', hblack, hbal⟩ := eraseFixLoop_spec hr₁ (bal_leaf.mpr rfl) hfit₁
      hnd₁ hlen
    refine ⟨h', t', ?_, ⟨hr', hord' ▸ hnd₁, hblack, hbal⟩, hord' ▸ hsub, fun x => ?_⟩
    · simp only [Heap.rbErase, hout, bind, Except.bind]
      exact hloop
    · rw [hord']
      exact hmem x

omit [DecidableEq α] in
theorem rbErase_redBlack_pair :
    IsRedBlack pairHeap pairTree ∧
      ∃ h' t', pairHeap.rbErase 2 1 = .ok h' ∧ IsRedBlack h' t' := by
  have hroot : (1 : Fin 3) ∈ pairTree.inorder := by decide
  obtain ⟨h', t', hout, ht', -⟩ := rbErase_redBlack pairHeap_isRedBlack hroot (Nat.le_refl 2)
  exact ⟨pairHeap_isRedBlack, h', t', hout, ht'⟩

theorem rbErase_spec {cmp : α → α → Bool} {fuel : ℕ} [IsStrictOrder α (Less cmp)]
    (ht : IsTree cmp h t) (ha : a ∈ t.inorder) (hfuel : t.inorder.length ≤ fuel) :
    ∃ h' t', h.rbErase fuel a = .ok h' ∧ IsTree cmp h' t' ∧
      ∀ x, x ∈ t'.inorder ↔ x ≠ a ∧ x ∈ t.inorder := by
  obtain ⟨h', t', hout, ht', hsub, hmem⟩ := rbErase_redBlack ht.isRedBlack ha hfuel
  exact ⟨h', t', hout, ht'.isTree (ht.sorted.sublist hsub), hmem⟩

end ShikiOS.Common.Rb
