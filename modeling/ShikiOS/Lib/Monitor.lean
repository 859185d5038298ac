import ShikiOS.Lib.Run

/-!
# Data that one lock protects

Processes run code that is cut at the acquisitions and releases of one lock. A point of the
code says what a process does next: it takes the lock, lets it go, works on the data as the
holder of the lock should (`access`), does something else that need not hold it (`act`), or
returns. Letting the lock go frees it, whoever has it.

`Disciplined code inside bad` is a condition on the points alone: `inside` are those where a
process should have the lock, and every point keeps to that except the `bad` ones.

Results:
* `Exclusive.step`: a step that is not made at a bad point keeps the lock exclusive.
* `Steps.of_next`: what a step can do.
* `Inv.run`: an invariant of the data and one of each process by itself, after every run.
* `finish_acquire`, `finish_access`, ..., `callAlone_run`: calls that are made one after the other.
-/

namespace ShikiOS.Lib

variable {δ A Pc C : Type}

/-- What a process does at a point of the code. An `access` or `act` gets the number of the
    process, an answer from outside and the data; `none` makes the process wait. -/
inductive MonitorOp (δ A Pc : Type)
  | acquire (k : Pc)
  | release (k : Pc)
  | access (f : ℕ → A → δ → Option (δ × Pc))
  | act (f : ℕ → A → δ → Option (δ × Pc))
  | ret

/-- The code, where a call starts, and when a process may make it. -/
structure Monitor (δ A Pc C : Type) where
  code : Pc → MonitorOp δ A Pc
  start : C → Pc
  may : δ → ℕ → C → Bool

/-- The data, the process that took the lock last if nobody has let it go since, and where
    each process is in its call. It is recorded whether a process has let the lock go, or has
    worked on the data, while it was not the holder. -/
structure MonitorState (δ Pc : Type) where
  data : δ
  holder : Option ℕ
  pc : ℕ → Option Pc
  badRelease : Bool
  badAccess : Bool

/-- Process `p` makes a call, or its next step. -/
inductive MonitorAction (A C : Type)
  | call (p : ℕ) (c : C)
  | step (p : ℕ) (a : A)

namespace Monitor

/-- Process `p` is at `x`. -/
def goto (s : MonitorState δ Pc) (p : ℕ) (x : Option Pc) : MonitorState δ Pc :=
  { s with pc := Function.update s.pc p x }

/-- One step. -/
def next (m : Monitor δ A Pc C) (s : MonitorState δ Pc) :
    MonitorAction A C → Option (MonitorState δ Pc)
  | .call p c =>
    if (s.pc p).isNone && m.may s.data p c then some (goto s p (some (m.start c))) else none
  | .step p a =>
    match s.pc p with
    | none => none
    | some c =>
      match m.code c with
      | .acquire k =>
        if s.holder.isNone then some (goto { s with holder := some p } p (some k)) else none
      | .release k =>
        let badRelease := s.badRelease || s.holder != some p
        some (goto { s with holder := none, badRelease := badRelease } p (some k))
      | .access f =>
        match f p a s.data with
        | some (d, k) =>
          let badAccess := s.badAccess || s.holder != some p
          some (goto { s with data := d, badAccess := badAccess } p (some k))
        | none => none
      | .act f =>
        match f p a s.data with
        | some (d, k) => some (goto { s with data := d } p (some k))
        | none => none
      | .ret => some (goto s p none)

/-- No process makes a step at a bad point. -/
def Avoids (bad : Pc → Bool) (s : MonitorState δ Pc) : MonitorAction A C → Prop
  | .call _ _ => True
  | .step p _ => (s.pc p).all fun c => !bad c

instance (bad : Pc → Bool) (s : MonitorState δ Pc) (a : MonitorAction A C) :
    Decidable (Avoids bad s a) :=
  match a with
  | .call _ _ => inferInstanceAs (Decidable True)
  | .step p _ => inferInstanceAs (Decidable (((s.pc p).all fun c => !bad c) = true))

/-- What one point of the code has to keep to. -/
def Keeps (inside : Pc → Bool) (c : Pc) : MonitorOp δ A Pc → Prop
  | .acquire k => inside c = false ∧ inside k = true
  | .release k => inside c = true ∧ inside k = false
  | .access f =>
    inside c = true ∧ ∀ p a d r, f p a d = some r → inside r.2 = true
  | .act f => ∀ p a d r, f p a d = some r → inside r.2 = inside c
  | .ret => inside c = false

/-- The processes at the points `inside` should have the lock. -/
structure Disciplined (m : Monitor δ A Pc C) (inside bad : Pc → Bool) : Prop where
  start : ∀ c, inside (m.start c) = false
  keeps : ∀ c, bad c = false → Keeps inside c (m.code c)

/-- Process `p` is at a point where it should have the lock. -/
def Inside (inside : Pc → Bool) (s : MonitorState δ Pc) (p : ℕ) : Prop :=
  ∃ c, s.pc p = some c ∧ inside c = true

/-- The processes inside are the holder of the lock. -/
def Exclusive (inside : Pc → Bool) (s : MonitorState δ Pc) : Prop :=
  ∀ p, Inside inside s p ↔ s.holder = some p

/-- Only the holder has let the lock go or worked on the data. -/
def Clean (s : MonitorState δ Pc) : Prop := s.badRelease = false ∧ s.badAccess = false

variable {m : Monitor δ A Pc C} {inside bad : Pc → Bool} {s t : MonitorState δ Pc} {p : ℕ}
  {c : Pc}

@[simp] theorem goto_pc_self (x : Option Pc) : (goto s p x).pc p = x := Function.update_self _ _ _

theorem goto_pc_of_ne {q : ℕ} (h : q ≠ p) (x : Option Pc) : (goto s p x).pc q = s.pc q :=
  Function.update_of_ne h _ _

@[simp] theorem goto_data (x : Option Pc) : (goto s p x).data = s.data := rfl

@[simp] theorem goto_holder (x : Option Pc) : (goto s p x).holder = s.holder := rfl

/-- The state before the first call. -/
def initial (d : δ) : MonitorState δ Pc := ⟨d, none, fun _ => none, false, false⟩

theorem exclusive_initial (d : δ) : Exclusive inside (initial d : MonitorState δ Pc) := by
  intro p
  constructor
  · rintro ⟨c, hc, -⟩
    cases hc
  · intro he
    cases he

/-- The ways in which a state follows another by a step that is not made at a bad point. -/
inductive Steps (m : Monitor δ A Pc C) (bad : Pc → Bool) (s : MonitorState δ Pc) :
    MonitorState δ Pc → Prop
  | call (p : ℕ) (c : C) : s.pc p = none → m.may s.data p c = true →
      Steps m bad s (goto s p (some (m.start c)))
  | acquire (p : ℕ) (c k : Pc) : s.pc p = some c → bad c = false → m.code c = .acquire k →
      s.holder = none → Steps m bad s (goto { s with holder := some p } p (some k))
  | release (p : ℕ) (c k : Pc) (b : Bool) : s.pc p = some c → bad c = false →
      m.code c = .release k → b = (s.badRelease || s.holder != some p) →
      Steps m bad s (goto { s with holder := none, badRelease := b } p (some k))
  | access (p : ℕ) (c : Pc) (f) (a : A) (d : δ) (k : Pc) (b : Bool) : s.pc p = some c →
      bad c = false → m.code c = .access f → f p a s.data = some (d, k) →
      b = (s.badAccess || s.holder != some p) →
      Steps m bad s (goto { s with data := d, badAccess := b } p (some k))
  | act (p : ℕ) (c : Pc) (f) (a : A) (d : δ) (k : Pc) : s.pc p = some c → bad c = false →
      m.code c = .act f → f p a s.data = some (d, k) →
      Steps m bad s (goto { s with data := d } p (some k))
  | ret (p : ℕ) (c : Pc) : s.pc p = some c → bad c = false → m.code c = .ret →
      Steps m bad s (goto s p none)

/-- What a step can do. -/
theorem Steps.of_next {a : MonitorAction A C} (hok : Avoids bad s a) (h : next m s a = some t) :
    Steps m bad s t := by
  unfold next at h
  cases a with
  | call p c =>
    simp only at h
    split_ifs at h with hc
    rw [Bool.and_eq_true, Option.isNone_iff_eq_none] at hc
    obtain rfl := Option.some.inj h
    exact .call p c hc.1 hc.2
  | step p a =>
    simp only at h
    split at h
    · cases h
    · next c hpc =>
      have hc : bad c = false := by
        unfold Avoids at hok
        simpa [hpc] using hok
      split at h
      · next k hcode =>
        split_ifs at h with hfree
        obtain rfl := Option.some.inj h
        exact .acquire p c k hpc hc hcode (Option.isNone_iff_eq_none.mp hfree)
      · next k hcode =>
        obtain rfl := Option.some.inj h
        exact .release p c k _ hpc hc hcode rfl
      · next f hcode =>
        split at h
        · next d k hf =>
          obtain rfl := Option.some.inj h
          exact .access p c f a d k _ hpc hc hcode hf rfl
        · cases h
      · next f hcode =>
        split at h
        · next d k hf =>
          obtain rfl := Option.some.inj h
          exact .act p c f a d k hpc hc hcode hf
        · cases h
      · next hcode =>
        obtain rfl := Option.some.inj h
        exact .ret p c hpc hc hcode

/-! ## Mutual exclusion -/

theorem inside_goto_self {x : Option Pc} :
    Inside inside (goto s p x) p ↔ ∃ c, x = some c ∧ inside c = true := by
  unfold Inside
  rw [goto_pc_self]

theorem inside_goto_of_ne {q : ℕ} (h : q ≠ p) {x : Option Pc} :
    Inside inside (goto s p x) q ↔ Inside inside s q := by
  unfold Inside
  rw [goto_pc_of_ne h]

/-- Process `p` moves and keeps being inside or outside. -/
theorem Exclusive.stay (h : Exclusive inside s) {d : δ} {b b' : Bool} {x : Option Pc}
    (hx : (∃ c, x = some c ∧ inside c = true) ↔ Inside inside s p) :
    Exclusive inside (goto ⟨d, s.holder, s.pc, b, b'⟩ p x) := by
  intro q
  by_cases hq : q = p
  · subst hq
    rw [inside_goto_self, hx]
    exact h q
  · rw [inside_goto_of_ne hq]
    exact h q

theorem inside_iff (hpc : s.pc p = some c) : Inside inside s p ↔ inside c = true := by
  unfold Inside
  rw [hpc]
  simp

/-- Every step at a point that is not bad keeps the lock exclusive. -/
theorem Exclusive.step (h : Exclusive inside s) (hd : Disciplined m inside bad)
    (hs : Steps m bad s t) : Exclusive inside t := by
  cases hs with
  | call p c hpc _ =>
    refine h.stay ?_
    unfold Inside
    rw [hpc]
    simp [hd.start c]
  | acquire p c k hpc hbad hcode hfree =>
    have hk := hd.keeps c hbad
    rw [hcode] at hk
    intro q
    by_cases hq : q = p
    · subst hq
      rw [inside_goto_self]
      exact ⟨fun _ => rfl, fun _ => ⟨k, rfl, hk.2⟩⟩
    · rw [inside_goto_of_ne hq]
      have hout : ¬ Inside inside s q := by
        rw [h q, hfree]
        exact fun e => by cases e
      exact ⟨fun hi => absurd hi hout, fun e => absurd (Option.some.inj e).symm hq⟩
  | release p c k b hpc hbad hcode _ =>
    have hk := hd.keeps c hbad
    rw [hcode] at hk
    have hp : s.holder = some p := (h p).mp ((inside_iff hpc).mpr hk.1)
    intro q
    by_cases hq : q = p
    · subst hq
      rw [inside_goto_self]
      refine ⟨?_, fun e => by cases e⟩
      rintro ⟨c', e, hc'⟩
      obtain rfl := Option.some.inj e
      rw [hk.2] at hc'
      cases hc'
    · rw [inside_goto_of_ne hq]
      have hout : ¬ Inside inside s q := by
        rw [h q, hp]
        exact fun e => hq (Option.some.inj e).symm
      exact ⟨fun hi => absurd hi hout, fun e => by cases e⟩
  | access p c f a d k b hpc hbad hcode hf _ =>
    have hk := hd.keeps c hbad
    rw [hcode] at hk
    refine h.stay ?_
    rw [inside_iff hpc]
    simp [hk.1, hk.2 p a s.data (d, k) hf]
  | act p c f a d k hpc hbad hcode hf =>
    have hk := hd.keeps c hbad
    rw [hcode] at hk
    refine h.stay ?_
    rw [inside_iff hpc, ← hk p a s.data (d, k) hf]
    simp
  | ret p c hpc hbad hcode =>
    have hk := hd.keeps c hbad
    rw [hcode] at hk
    refine h.stay ?_
    rw [inside_iff hpc, show inside c = false from hk]
    simp

/-- No step at a point that is not bad is made without the lock where it is needed. -/
theorem Clean.step (h : Clean s) (he : Exclusive inside s) (hd : Disciplined m inside bad)
    (hs : Steps m bad s t) : Clean t := by
  cases hs with
  | release p c k b hpc hbad hcode hb =>
    have hk := hd.keeps c hbad
    rw [hcode] at hk
    rw [(he p).mp ((inside_iff hpc).mpr hk.1), h.1, bne_self_eq_false, Bool.or_self] at hb
    exact ⟨hb, h.2⟩
  | access p c f a d k b hpc hbad hcode _ hb =>
    have hk := hd.keeps c hbad
    rw [hcode] at hk
    rw [(he p).mp ((inside_iff hpc).mpr hk.1), h.2, bne_self_eq_false, Bool.or_self] at hb
    exact ⟨h.1, hb⟩
  | _ => exact h

/-! ## Invariants -/

/-- `I` is an invariant of the data, and `L p` of the data and where process `p` is. A step of
    one process keeps `L` of the others; an access may use that no other process is inside. -/
structure Rely (m : Monitor δ A Pc C) (inside bad : Pc → Bool) (I : δ → Prop)
    (L : ℕ → δ → Option Pc → Prop) : Prop where
  call : ∀ p c d, I d → m.may d p c = true → L p d none → L p d (some (m.start c))
  move : ∀ p c k d, bad c = false → m.code c = .acquire k ∨ m.code c = .release k → I d →
    L p d (some c) → L p d (some k)
  access : ∀ p c f a d d' k, bad c = false → m.code c = .access f → f p a d = some (d', k) →
    I d → L p d (some c) → I d' ∧ L p d' (some k) ∧
      ∀ q x, q ≠ p → (∀ c', x = some c' → inside c' = false) → L q d x → L q d' x
  act : ∀ p c f a d d' k, bad c = false → m.code c = .act f → f p a d = some (d', k) →
    I d → L p d (some c) → I d' ∧ L p d' (some k) ∧ ∀ q x, q ≠ p → L q d x → L q d' x
  ret : ∀ p c d, bad c = false → m.code c = .ret → I d → L p d (some c) → L p d none

/-- What `Rely` shows of a state. -/
structure Inv (inside : Pc → Bool) (I : δ → Prop) (L : ℕ → δ → Option Pc → Prop)
    (s : MonitorState δ Pc) : Prop where
  excl : Exclusive inside s
  clean : Clean s
  data : I s.data
  each : ∀ p, L p s.data (s.pc p)

variable {I : δ → Prop} {L : ℕ → δ → Option Pc → Prop}

/-- The data and the point of process `p` change. -/
theorem each_goto {d : δ} {x : Option Pc} {h' : Option ℕ} {b b' : Bool} (hp : L p d x)
    (hne : ∀ q, q ≠ p → L q d (s.pc q)) :
    ∀ q, L q d ((goto ⟨d, h', s.pc, b, b'⟩ p x).pc q) := by
  intro q
  by_cases hq : q = p
  · subst hq
    rw [goto_pc_self]
    exact hp
  · rw [goto_pc_of_ne hq]
    exact hne q hq

theorem Inv.step (h : Inv inside I L s) (hd : Disciplined m inside bad)
    (hr : Rely m inside bad I L) (hs : Steps m bad s t) : Inv inside I L t := by
  refine ⟨h.excl.step hd hs, h.clean.step h.excl hd hs, ?_, ?_⟩
  · cases hs with
    | access p c f a d k b hpc hbad hcode hf _ =>
      exact (hr.access p c f a s.data d k hbad hcode hf h.data (hpc ▸ h.each p)).1
    | act p c f a d k hpc hbad hcode hf =>
      exact (hr.act p c f a s.data d k hbad hcode hf h.data (hpc ▸ h.each p)).1
    | _ => exact h.data
  · cases hs with
    | call p c hpc hmay =>
      exact each_goto (hr.call p c s.data h.data hmay (hpc ▸ h.each p)) fun q _ => h.each q
    | acquire p c k hpc hbad hcode _ =>
      have hp := hr.move p c k s.data hbad (.inl hcode) h.data (hpc ▸ h.each p)
      exact each_goto hp fun q _ => h.each q
    | release p c k b hpc hbad hcode _ =>
      have hp := hr.move p c k s.data hbad (.inr hcode) h.data (hpc ▸ h.each p)
      exact each_goto hp fun q _ => h.each q
    | access p c f a d k b hpc hbad hcode hf _ =>
      obtain ⟨-, hp, hne⟩ := hr.access p c f a s.data d k hbad hcode hf h.data (hpc ▸ h.each p)
      have hk := hd.keeps c hbad
      rw [hcode] at hk
      have hhold : s.holder = some p := (h.excl p).mp ((inside_iff hpc).mpr hk.1)
      refine each_goto hp fun q hq => ?_
      refine hne q _ hq (fun c' hc' => ?_) (h.each q)
      by_contra hin
      have hq' := (h.excl q).mp ⟨c', hc', by simpa using hin⟩
      rw [hhold] at hq'
      exact hq (Option.some.inj hq').symm
    | act p c f a d k hpc hbad hcode hf =>
      obtain ⟨-, hp, hne⟩ := hr.act p c f a s.data d k hbad hcode hf h.data (hpc ▸ h.each p)
      exact each_goto hp fun q hq => hne q _ hq (h.each q)
    | ret p c hpc hbad hcode =>
      exact each_goto (hr.ret p c s.data hbad hcode h.data (hpc ▸ h.each p)) fun q _ => h.each q

/-- The invariants hold after every run that makes no step at a bad point. -/
theorem Inv.run {d : δ} (h : Run (next m) (Avoids bad) (initial d) t)
    (hd : Disciplined m inside bad) (hr : Rely m inside bad I L) (hI : I d)
    (hL : ∀ p, L p d none) : Inv inside I L t :=
  h.invariant ⟨exclusive_initial d, ⟨rfl, rfl⟩, hI, hL⟩ fun _ _ _ hi hok hs =>
    hi.step hd hr (.of_next hok hs)

/-! ## One call after the other -/

/-- Process `p` makes steps until its call returns: the state then, and the point it is at. -/
def finish (m : Monitor δ A Pc C) (p : ℕ) (a : A) :
    ℕ → MonitorState δ Pc → Option (MonitorState δ Pc × Pc)
  | 0, _ => none
  | fuel + 1, s =>
    match s.pc p, next m s (.step p a) with
    | some c, some t =>
      match m.code c with
      | .ret => some (t, c)
      | _ => finish m p a fuel t
    | _, _ => none

/-- Process `p` makes a call while no other process makes a step. -/
def callAlone (m : Monitor δ A Pc C) (fuel p : ℕ) (a : A) (c : C) (s : MonitorState δ Pc) :
    Option (MonitorState δ Pc × Pc) :=
  match next m s (.call p c) with
  | none => none
  | some t => finish m p a fuel t

/-- Only process `p` is in a call, at `c`. -/
def busy (d : δ) (p : ℕ) (holder : Option ℕ) (c : Pc) : MonitorState δ Pc :=
  goto { (initial d : MonitorState δ Pc) with holder := holder } p (some c)

section Alone

variable {d d' : δ} {a : A} {k : Pc} {fuel : ℕ} {holder : Option ℕ}

theorem busy_pc : (busy d p holder c).pc p = some c := goto_pc_self _

theorem goto_busy {h' : Option ℕ} :
    goto { busy d p holder c with data := d', holder := h' } p (some k) = busy d' p h' k := by
  show (⟨_, _, _, _, _⟩ : MonitorState δ Pc) = ⟨_, _, _, _, _⟩
  congr 1
  exact Function.update_idem _ _ _

theorem finish_acquire (hcode : m.code c = .acquire k) :
    finish m p a (fuel + 1) (busy d p none c) = finish m p a fuel (busy d p (some p) k) := by
  have hnext : next m (busy d p none c) (.step p a) = some (busy d p (some p) k) := by
    simp only [next, busy_pc, hcode]
    exact congrArg some goto_busy
  simp only [finish, busy_pc, hcode, hnext]

theorem finish_release (hcode : m.code c = .release k) :
    finish m p a (fuel + 1) (busy d p (some p) c) = finish m p a fuel (busy d p none k) := by
  have hnext : next m (busy d p (some p) c) (.step p a) = some (busy d p none k) := by
    have hholder : (busy d p (some p) c).holder = some p := rfl
    simp only [next, busy_pc, hcode, hholder, bne_self_eq_false, Bool.or_false]
    exact congrArg some goto_busy
  simp only [finish, busy_pc, hcode, hnext]

theorem finish_access {f} (hcode : m.code c = .access f) (hf : f p a d = some (d', k)) :
    finish m p a (fuel + 1) (busy d p (some p) c) = finish m p a fuel (busy d' p (some p) k) := by
  have hnext : next m (busy d p (some p) c) (.step p a) = some (busy d' p (some p) k) := by
    have hdata : f p a (busy d p (some p) c).data = some (d', k) := hf
    have hholder : (busy d p (some p) c).holder = some p := rfl
    simp only [next, busy_pc, hcode, hdata, hholder, bne_self_eq_false, Bool.or_false]
    exact congrArg some goto_busy
  simp only [finish, busy_pc, hcode, hnext]

theorem finish_act {f} (hcode : m.code c = .act f) (hf : f p a d = some (d', k)) :
    finish m p a (fuel + 1) (busy d p holder c) = finish m p a fuel (busy d' p holder k) := by
  have hnext : next m (busy d p holder c) (.step p a) = some (busy d' p holder k) := by
    have hdata : f p a (busy d p holder c).data = some (d', k) := hf
    simp only [next, busy_pc, hcode, hdata]
    exact congrArg some goto_busy
  simp only [finish, busy_pc, hcode, hnext]

theorem finish_ret (hcode : m.code c = .ret) :
    finish m p a (fuel + 1) (busy d p none c) = some (initial d, c) := by
  have hnext : next m (busy d p none c) (.step p a) = some (initial d) := by
    simp only [next, busy_pc, hcode]
    refine congrArg some ?_
    show (⟨_, _, _, _, _⟩ : MonitorState δ Pc) = ⟨_, _, _, _, _⟩
    congr 1
    show Function.update (Function.update (fun _ => none) p (some c)) p none = fun _ => none
    rw [Function.update_idem, Function.update_eq_self]
  simp only [finish, busy_pc, hcode, hnext]

theorem callAlone_eq {x : C} (hmay : m.may d p x = true) :
    callAlone m fuel p a x (initial d) = finish m p a fuel (busy d p none (m.start x)) := by
  have hnext : next m (initial d) (.call p x) = some (busy d p none (m.start x)) := by
    have hmay' : m.may (initial d : MonitorState δ Pc).data p x = true := hmay
    simp only [next, hmay']
    rfl
  simp only [callAlone, hnext]

/-- The steps of a call that is made alone are a run. -/
theorem finish_run {s t : MonitorState δ Pc} {r : Pc} (h : finish m p a fuel s = some (t, r)) :
    Run (next m) anyStep s t := by
  induction fuel generalizing s with
  | zero => cases h
  | succ fuel ih =>
    unfold finish at h
    split at h
    · next c t' hpc hnext =>
      have hstep : Run (next m) anyStep s t' := Run.tail Run.refl trivial hnext
      split at h
      · obtain ⟨rfl, -⟩ := Prod.mk.inj (Option.some.inj h)
        exact hstep
      · exact hstep.trans (ih h)
    · cases h

theorem callAlone_run {s t : MonitorState δ Pc} {x : C} {r : Pc}
    (h : callAlone m fuel p a x s = some (t, r)) : Run (next m) anyStep s t := by
  unfold callAlone at h
  split at h
  · cases h
  · next t' hnext =>
    have hcall : Run (next m) anyStep s t' := Run.tail Run.refl trivial hnext
    exact hcall.trans (finish_run h)

end Alone

end Monitor

end ShikiOS.Lib
