import ShikiOS.Kernel.ExecLoad

/-!
# The stack that `execve` builds (`kernel/exec.c`)

The strings are written downwards from `USERTOP`, and the pointers to them are found again by walking
upwards over the strings.

Results:
* `pushStrings_spec`, `setPointers_spec`: where the strings are, and that the pointers lead to them.
* `buildStack_spec`: what is on the new stack.
-/

namespace ShikiOS.Kernel.Exec

open ShikiOS.Lib Paging

variable {c : Call} {s t : State} {v w : Vm} {m₀ : ℕ → UInt8} {F : Set ℕ} {fr fr' : List ℕ} {T T' : Tree}
  {pd pgdir q n k a b top : ℕ} {va x : UInt64} {str : List UInt8} {l l' : List (List UInt8)} {ws ws' : List UInt64}

/-! ## Words -/

/-- The bytes of a word. -/
def wordBytes (x : UInt64) : List UInt8 := (List.range 8).map fun i => UInt8.ofNat (x.toNat / 256 ^ i)

theorem wordBytes_length : (wordBytes x).length = 8 := by rw [wordBytes, List.length_map, List.length_range]

theorem wordBytes_getD {i : ℕ} (hi : i < 8) : (wordBytes x).getD i 0 = UInt8.ofNat (x.toNat / 256 ^ i) := by
  rw [wordBytes, List.getD_eq_getElem?_getD, List.getElem?_map, List.getElem?_range hi, Option.map_some,
    Option.getD_some]

theorem wordBytes_zero {i : ℕ} (hi : i < 8) : (wordBytes 0).getD i 0 = 0 := by
  rw [wordBytes_getD hi, UInt64.toNat_zero, Nat.zero_div]
  rfl

theorem setWord_eq {h : Heap} : h.setWord a x = h.putBytes a (wordBytes x) := by
  have hmem : putLE h.mem a 8 x.toNat =
      fun y => if a ≤ y ∧ y < a + (wordBytes x).length then (wordBytes x).getD (y - a) 0 else h.mem y := by
    funext y
    rw [wordBytes_length]
    split_ifs with hin
    · obtain ⟨i, rfl⟩ := Nat.exists_eq_add_of_le hin.1
      rw [putLE_inside _ (by omega), show a + i - a = i by omega, wordBytes_getD (by omega)]
    · exact putLE_outside _ (by omega)
  rw [Heap.setWord, Heap.setLink, hmem, Heap.putBytes]

theorem store_eq : store a x = readPage a (wordBytes x) := by
  rw [store, readPage]
  simp only [setWord_eq]

/-- The 64-bit word that the process reads. -/
def userWord (v : Vm) (pd : ℕ) (va : UInt64) : Option UInt64 := (translate v pd va).map v.heap.word

theorem userWord_eq (hd : PageDir v pd fr T) (hva : va.toNat < 2 ^ 48) (h8 : va.toNat % 8 = 0)
    (h : HasBytes v T va.toNat (wordBytes x)) : userWord v pd va = some x := by
  have hbyte : ∀ i < 8, byteAt v T (va.toNat + i) = some (UInt8.ofNat (x.toNat / 256 ^ i)) := by
    intro i hi
    rw [h i (by rwa [wordBytes_length]), wordBytes_getD hi]
  obtain ⟨q, hq⟩ : ∃ q, pageAt v T (va.toNat / 2 ^ 12) = some q := by
    refine Option.ne_none_iff_exists'.mp fun hnone => ?_
    have h0 := hbyte 0 (by decide)
    rw [byteAt, Nat.add_zero, hnone] at h0
    cases h0
  rw [userWord, translate_eq hd, vpn_eq hva, hq, Option.map_some, Option.map_some, Heap.word, Heap.link]
  refine congrArg some ?_
  have hle : getLE v.heap.mem (q + va.toNat % pageSize) 8 = x.toNat % 256 ^ 8 := by
    refine getLE_of_bytes fun i hi => ?_
    have hb := hbyte i hi
    rw [byteAt, show (va.toNat + i) / 2 ^ 12 = va.toNat / 2 ^ 12 by omega, hq, Option.map_some,
      Option.some.injEq] at hb
    rw [← hb]
    congr 1
    unfold pageSize
    omega
  have hlt : x.toNat < 256 ^ 8 := x.toNat_lt
  rw [hle, Nat.mod_eq_of_lt hlt, UInt64.ofNat_toNat]

/-- The process reads the words `ws` from `a` on. -/
def HasWords (v : Vm) (T : Tree) : ℕ → List UInt64 → Prop
  | _, [] => True
  | a, x :: ws => HasBytes v T a (wordBytes x) ∧ HasWords v T (a + 8) ws

theorem hasWords_append : HasWords v T a (ws ++ ws') ↔ HasWords v T a ws ∧ HasWords v T (a + 8 * ws.length) ws' := by
  induction ws generalizing a with
  | nil => exact ⟨fun h => ⟨trivial, h⟩, fun h => h.2⟩
  | cons x ws ih =>
    rw [List.cons_append, HasWords, HasWords, ih, and_assoc, List.length_cons,
      show a + 8 + 8 * ws.length = a + 8 * (ws.length + 1) by omega]

theorem HasWords.mono (h : HasWords v T a ws)
    (hk : ∀ k r, a ≤ k → k < a + 8 * ws.length → byteAt v T k = some r → byteAt w T' k = some r) :
    HasWords w T' a ws := by
  induction ws generalizing a with
  | nil => exact trivial
  | cons x ws ih =>
    rw [List.length_cons] at hk
    refine ⟨h.1.mono fun k r h1 h2 => ?_, ih h.2 fun k r h1 h2 => hk k r (by omega) (by omega)⟩
    rw [wordBytes_length] at h2
    exact hk k r h1 (by omega)

theorem HasWords.keeps (h : HasWords v T n ws) (hk : Keeps m₀ F v pd fr T a b w fr' T')
    (hout : n + 8 * ws.length ≤ a ∨ b ≤ n) (htop : n + 8 * ws.length ≤ 2 ^ 48) : HasWords w T' n ws :=
  h.mono fun k r _ _ => hk.byte k r (by omega) (by omega)

/-! ## Strings -/

/-- The bytes that a list of strings takes, with their terminators. -/
def stringsSize : List (List UInt8) → ℕ
  | [] => 0
  | str :: l => str.length + 1 + stringsSize l

theorem stringsSize_append : stringsSize (l ++ l') = stringsSize l + stringsSize l' := by
  induction l with
  | nil => exact (Nat.zero_add _).symm
  | cons str l ih =>
    rw [List.cons_append, stringsSize, stringsSize, ih]
    omega

/-- The strings lie below `top`, each below the one before. -/
def HasStrings (v : Vm) (T : Tree) : ℕ → List (List UInt8) → Prop
  | _, [] => True
  | top, str :: l => HasBytes v T (top - (str.length + 1)) (str ++ [0]) ∧ HasStrings v T (top - (str.length + 1)) l

/-- The addresses of the strings. -/
def addrs : ℕ → List (List UInt8) → List UInt64
  | _, [] => []
  | top, str :: l => UInt64.ofNat (top - (str.length + 1)) :: addrs (top - (str.length + 1)) l

theorem addrs_length : (addrs top l).length = l.length := by
  induction l generalizing top with
  | nil => rfl
  | cons str l ih => rw [addrs, List.length_cons, ih, List.length_cons]

theorem addrs_append : addrs top (l ++ l') = addrs top l ++ addrs (top - stringsSize l) l' := by
  induction l generalizing top with
  | nil => rfl
  | cons str l ih => rw [List.cons_append, addrs, ih, addrs, stringsSize, List.cons_append,
    Nat.sub_add_eq top (str.length + 1)]

theorem hasStrings_append : HasStrings v T top (l ++ l') ↔
    HasStrings v T top l ∧ HasStrings v T (top - stringsSize l) l' := by
  induction l generalizing top with
  | nil => exact ⟨fun h => ⟨trivial, h⟩, fun h => h.2⟩
  | cons str l ih => rw [List.cons_append, HasStrings, HasStrings, ih, stringsSize, and_assoc,
    Nat.sub_add_eq top (str.length + 1)]

theorem HasStrings.mono (h : HasStrings v T top l) (hsize : stringsSize l ≤ top)
    (hk : ∀ k r, top - stringsSize l ≤ k → k < top → byteAt v T k = some r → byteAt w T' k = some r) :
    HasStrings w T' top l := by
  induction l generalizing top with
  | nil => exact trivial
  | cons str l ih =>
    rw [stringsSize] at hk hsize
    refine ⟨h.1.mono fun k r h1 h2 => ?_, ih h.2 (by omega) fun k r h1 h2 => hk k r (by omega) (by omega)⟩
    rw [List.length_append, List.length_singleton] at h2
    exact hk k r (by omega) (by omega)

theorem HasStrings.keeps (h : HasStrings v T top l) (hk : Keeps m₀ F v pd fr T a b w fr' T')
    (hout : top ≤ a ∨ b ≤ top - stringsSize l) (hsize : stringsSize l ≤ top) (htop : top ≤ 2 ^ 48) :
    HasStrings w T' top l :=
  h.mono hsize fun k r _ _ => hk.byte k r (by omega) (by omega)

/-- The roots of the directories do not matter. -/
theorem HasStrings.root {f : ℕ → ℕ} (h : HasStrings v T top l) (hsize : stringsSize l ≤ top) :
    HasStrings { v with pt := f } T top l :=
  h.mono hsize fun _ _ _ _ hr => hr

/-- The strings are copied below `sp`. -/
theorem pushStrings_spec {sp : UInt64} (h : Image m₀ F v pd fr T) (hsize : stringsSize l ≤ sp.toNat)
    (htop : sp.toNat ≤ 2 ^ 48) : wp (pushStrings pd l sp) (fun x w => x.toNat = sp.toNat - stringsSize l ∧
      ∃ fr' T', Keeps m₀ F v pd fr T x.toNat sp.toNat w fr' T' ∧ HasStrings w T' sp.toNat l) NoPage v := by
  induction l generalizing sp v fr T with
  | nil => exact wp_pure.mpr ⟨rfl, fr, T, Keeps.refl h, trivial⟩
  | cons str l ih =>
    rw [stringsSize] at hsize
    have hlen : (UInt64.ofNat str.length + 1).toNat = str.length + 1 := by
      rw [UInt64.toNat_add, UInt64.toNat_ofNat']
      show (str.length % 2 ^ 64 + 1) % 2 ^ 64 = _
      omega
    have hle : UInt64.ofNat str.length + 1 ≤ sp := by
      rw [UInt64.le_iff_toNat_le, hlen]
      omega
    have hsp : (sp - (UInt64.ofNat str.length + 1)).toNat = sp.toNat - (str.length + 1) := by
      rw [UInt64.toNat_sub_of_le _ _ hle, hlen]
    rw [pushStrings, wp_bind]
    refine (copyout_image (p := .user (str ++ [0])) h trivial ?_).imp ?_
    · rw [hsp, hlen]
      show _ ≤ 2 ^ 48
      omega
    rintro r w ⟨-, fr₁, T₁, hk₁, hbytes⟩
    rw [hsp, hlen] at hk₁ hbytes
    have hstr : HasBytes w T₁ (sp.toNat - (str.length + 1)) (str ++ [0]) := by
      intro i hi
      rw [List.length_append, List.length_singleton] at hi
      have := hbytes (sp.toNat - (str.length + 1) + i) (by omega) (by omega)
      rwa [show sp.toNat - (str.length + 1) + i - (sp.toNat - (str.length + 1)) = i by omega] at this
    refine (ih hk₁.image (by omega) (by omega)).imp ?_
    rw [hsp]
    rintro x u ⟨hx, fr', T', hk₂, hstrs⟩
    rw [stringsSize]
    refine ⟨by omega, fr', T', (hk₁.mono (by omega) (by omega)).trans (hk₂.mono le_rfl (by omega)), ?_, hstrs⟩
    refine hstr.keeps hk₂ (.inr (by omega)) ?_
    rw [List.length_append, List.length_singleton]
    omega

theorem pushStrings_append {sp : UInt64} :
    pushStrings pd (l ++ l') sp = pushStrings pd l sp >>= pushStrings pd l' := by
  induction l generalizing sp with
  | nil => rfl
  | cons str l ih =>
    rw [List.cons_append, pushStrings, pushStrings, bind_assoc]
    exact congrArg _ (funext fun _ => ih)

/-! ## Pointers -/

/-- The pages of the addresses from `a` to `b` are mapped. -/
def Mapped (v : Vm) (T : Tree) (a b : ℕ) : Prop := ∀ k, a ≤ k → k < b → ∃ r, byteAt v T k = some r

theorem Mapped.page (h : Mapped v T a b) (ha : a ≤ k) (hb : k < b) : pageAt v T (k / 2 ^ 12) ≠ none := by
  intro hnone
  obtain ⟨r, hr⟩ := h k ha hb
  rw [byteAt, hnone] at hr
  cases hr

theorem Mapped.keeps (h : Mapped v T a b) (hk : Keeps m₀ F v pd fr T n k w fr' T') (hb : b ≤ 2 ^ 48) :
    Mapped w T' a b := by
  intro j h1 h2
  obtain ⟨q, hq⟩ := Option.ne_none_iff_exists'.mp (h.page h1 h2)
  rw [byteAt, hk.pageAt (by omega) hq]
  exact ⟨_, rfl⟩

/-- A word is stored in a mapped page. -/
theorem storeWord_spec (h : Attached m₀ F c pgdir s fr T) (hva : va.toNat + 8 ≤ 2 ^ 48) (h8 : va.toNat % 8 = 0)
    (hm : Mapped s.vm T va.toNat (va.toNat + 8)) :
    wlp (storeWord c va x) (fun _ t => ∃ fr' T',
      Keeps m₀ F s.vm pgdir fr T va.toNat (va.toNat + 8) t.vm fr' T' ∧ HasBytes t.vm T' va.toNat (wordBytes x) ∧
      t.nested = s.nested) s := by
  have hpage : pageAt s.vm T (vpn va) ≠ none := by
    rw [vpn_eq (by omega)]
    exact hm.page le_rfl (by omega)
  have hlen := wordBytes_length (x := x)
  have hne : wordBytes x ≠ [] := List.length_pos_iff.mp (by omega)
  have hw := write_spec h (by rwa [hlen]) hne (by omega)
  rw [hlen] at hw
  simp only [storeWord, store_eq]
  refine hw.imp ?_
  rintro - t ⟨fr', T', hk, hb, hn⟩
  refine ⟨fr', T', hk, hb, Bool.eq_iff_iff.mpr (hn.trans (or_iff_left hpage))⟩

/-- A byte of a mapped page is read. -/
theorem access_byte {r : UInt8} {E : Paging.Stop → State → Prop} (h : Attached m₀ F c pgdir s fr T)
    (hva : va.toNat < 2 ^ 48) (hr : byteAt s.vm T va.toNat = some r) :
    wp (access c false va) (fun a t => s.vm.heap.mem a = r ∧ t = s) E s := by
  rw [byteAt, ← vpn_eq hva] at hr
  refine access_lookup h hva (fun q hq => ⟨?_, rfl⟩) fun hnone => ?_
  · rw [hq, Option.map_some, Option.some.injEq] at hr
    exact hr
  · rw [hnone] at hr
    cases hr

/-- The length of a string in mapped pages. -/
theorem strlen_spec (h : Attached m₀ F c pgdir s fr T) (hstr : HasBytes s.vm T va.toNat (str ++ [0]))
    (hnul : 0 ∉ str) (hn : str.length < n) (htop : va.toNat + str.length < 2 ^ 48) :
    wlp (strlen c n va) (fun r t => r = UInt64.ofNat str.length ∧ t = s) s := by
  induction str generalizing va n with
  | nil =>
    obtain ⟨n, rfl⟩ := Nat.exists_eq_succ_of_ne_zero (Nat.ne_zero_of_lt hn)
    rw [strlen, wlp, wp_bind]
    refine (access_byte h (by omega) (hstr 0 (by decide))).imp ?_
    rintro a _ ⟨ha, rfl⟩
    rw [wp_bind, wp_get]
    exact wp.ite (fun _ => wp_pure.mpr ⟨rfl, rfl⟩) fun hne => absurd ha hne
  | cons b str ih =>
    rw [List.length_cons] at hn htop
    obtain ⟨n, rfl⟩ := Nat.exists_eq_succ_of_ne_zero (Nat.ne_zero_of_lt hn)
    have hb : b ≠ 0 := fun hb => hnul (hb ▸ List.mem_cons_self)
    have hnext : (va + 1).toNat = va.toNat + 1 := by
      rw [UInt64.toNat_add]
      show (va.toNat + 1) % 2 ^ 64 = _
      omega
    have hrest : HasBytes s.vm T (va + 1).toNat (str ++ [0]) := by
      intro i hi
      rw [hnext, Nat.add_assoc, Nat.add_comm 1 i]
      exact hstr (i + 1) (by simpa using hi)
    rw [strlen, wlp, wp_bind]
    refine (access_byte h (by omega) (hstr 0 (by simp))).imp ?_
    rintro a _ ⟨ha, rfl⟩
    rw [wp_bind, wp_get]
    refine wp.ite (fun h0 => absurd (ha.symm.trans h0) hb) fun _ => ?_
    rw [wp_bind]
    refine (ih hrest (fun h0 => hnul (List.mem_cons_of_mem b h0)) (by omega) (by omega)).imp ?_
    rintro r t ⟨rfl, rfl⟩
    refine wp_pure.mpr ⟨?_, rfl⟩
    apply UInt64.toNat_inj.mp
    rw [UInt64.toNat_add, UInt64.toNat_ofNat', UInt64.toNat_ofNat', List.length_cons]
    show (1 + _) % 2 ^ 64 = _
    omega

theorem Mapped.mono (h : Mapped v T a b) (ha : a ≤ n) (hb : k ≤ b) : Mapped v T n k :=
  fun j h1 h2 => h j (by omega) (by omega)

/-- The pointers are found by walking upwards over the strings, from the last one on. -/
theorem setPointers_spec {base sp : UInt64} (h : Attached m₀ F c pgdir s fr T)
    (hsp : sp.toNat = top - stringsSize l) (hsize : stringsSize l ≤ top) (htop : top ≤ 2 ^ 48)
    (h8 : base.toNat % 8 = 0) (hbelow : base.toNat + 8 * l.length ≤ top - stringsSize l)
    (hm : Mapped s.vm T base.toNat (base.toNat + 8 * l.length)) (hstr : HasStrings s.vm T top l)
    (hnul : ∀ str ∈ l, 0 ∉ str) :
    wlp (setPointers c base l.length sp) (fun r t => r.toNat = top ∧ ∃ fr' T',
      Keeps m₀ F s.vm pgdir fr T base.toNat (base.toNat + 8 * l.length) t.vm fr' T' ∧
      HasWords t.vm T' base.toNat (addrs top l) ∧ t.nested = s.nested) s := by
  induction l using List.reverseRecOn generalizing s fr T sp with
  | nil => exact wp_pure.mpr ⟨hsp, fr, T, Keeps.refl h.image, trivial, rfl⟩
  | append_singleton l str ih =>
    have hsnoc : stringsSize (l ++ [str]) = stringsSize l + (str.length + 1) := stringsSize_append
    rw [hsnoc] at hsp hsize hbelow
    rw [List.length_append, List.length_singleton] at hbelow hm ⊢
    obtain ⟨hstrs, hlast, -⟩ := hasStrings_append.mp hstr
    rw [List.forall_mem_append, List.forall_mem_singleton] at hnul
    rw [show top - stringsSize l - (str.length + 1) = sp.toNat by omega] at hlast
    have hva : (base + 8 * UInt64.ofNat l.length).toNat = base.toNat + 8 * l.length := by
      rw [UInt64.toNat_add, UInt64.toNat_mul, UInt64.toNat_ofNat']
      show (base.toNat + 8 * (l.length % 2 ^ 64) % 2 ^ 64) % 2 ^ 64 = _
      omega
    have hstrlen : (str ++ [0]).length = str.length + 1 := by rw [List.length_append, List.length_singleton]
    rw [setPointers, wlp, wp_bind]
    refine (storeWord_spec h (by omega) (by omega) (hm.mono (by omega) (by omega))).imp ?_
    rintro - t ⟨fr₁, T₁, hk₁, hword, hn₁⟩
    rw [hva] at hk₁ hword
    have ht := h.keeps hk₁
    rw [wp_bind]
    refine (strlen_spec ht (hlast.keeps hk₁ (.inr (by omega)) (by omega)) hnul.2 (by omega) (by omega)).imp ?_
    rintro - _ ⟨rfl, rfl⟩
    have hnext : (sp + UInt64.ofNat str.length + 1).toNat = top - stringsSize l := by
      rw [UInt64.toNat_add, UInt64.toNat_add, UInt64.toNat_ofNat']
      show ((sp.toNat + str.length % 2 ^ 64) % 2 ^ 64 + 1) % 2 ^ 64 = _
      omega
    refine (ih ht hnext (by omega) (by omega) ((hm.mono le_rfl (by omega)).keeps hk₁ (by omega))
      (hstrs.keeps hk₁ (.inr (by omega)) (by omega) htop) hnul.1).imp ?_
    rintro r u ⟨hr, fr', T', hk₂, hwords, hn₂⟩
    refine ⟨hr, fr', T', (hk₁.mono (by omega) (by omega)).trans (hk₂.mono le_rfl (by omega)), ?_, hn₂.trans hn₁⟩
    rw [addrs_append, hasWords_append, addrs_length]
    refine ⟨hwords, ?_, trivial⟩
    rw [show top - stringsSize l - (str.length + 1) = sp.toNat by omega, UInt64.ofNat_toNat]
    refine hword.keeps hk₂ (.inr le_rfl) ?_
    rw [wordBytes_length]
    omega

/-! ## The layout -/

/-- Rounding down to a multiple of `2^k`. -/
theorem toNat_and_not {m : UInt64} (hk : k ≤ 64) (hm : m.toNat = 2 ^ k - 1) :
    (x &&& ~~~m).toNat = x.toNat / 2 ^ k * 2 ^ k := by
  have hpow : 2 ^ 64 - 1 - (2 ^ k - 1) = (2 ^ (64 - k) - 1) <<< k := by
    have h1 : 2 ^ (64 - k) * 2 ^ k = 2 ^ 64 := by rw [← pow_add, Nat.sub_add_cancel hk]
    have h2 : 0 < 2 ^ k := by positivity
    rw [Nat.shiftLeft_eq, Nat.sub_mul, h1]
    omega
  have hlt : x.toNat >>> k < 2 ^ (64 - k) := by
    rw [Nat.shiftRight_eq_div_pow, Nat.div_lt_iff_lt_mul (by positivity), ← pow_add, Nat.sub_add_cancel hk]
    exact x.toNat_lt
  have hand : x.toNat &&& (2 ^ (64 - k) - 1) <<< k = (x.toNat >>> k &&& (2 ^ (64 - k) - 1)) <<< k := by
    apply Nat.eq_of_testBit_eq
    intro i
    rw [Nat.testBit_and, Nat.testBit_shiftLeft, Nat.testBit_shiftLeft, Nat.testBit_and, Nat.testBit_shiftRight]
    by_cases hi : k ≤ i
    · rw [Nat.add_sub_cancel' hi, decide_eq_true hi, Bool.true_and, Bool.true_and]
    · rw [decide_eq_false hi, Bool.false_and, Bool.false_and, Bool.and_false]
  rw [UInt64.toNat_and, UInt64.toNat_not, hm]
  show x.toNat &&& (2 ^ 64 - 1 - (2 ^ k - 1)) = _
  rw [hpow, hand, Nat.and_two_pow_sub_one_eq_mod, Nat.mod_eq_of_lt hlt, Nat.shiftLeft_eq,
    Nat.shiftRight_eq_div_pow]

/-- The lowest byte of the strings. -/
def stringsBottom (argv envp : List (List UInt8)) : ℕ := 2 ^ 48 - stringsSize argv - stringsSize envp

/-- The stack pointer that the program gets. -/
def initialSp (argv envp : List (List UInt8)) : ℕ :=
  (stringsBottom argv envp - 8 * (argv.length + envp.length + 4)) / 16 * 16

/-- The lowest address that is mapped for the stack. -/
def stackBottom (argv envp : List (List UInt8)) : ℕ :=
  2 ^ 48 - (2 ^ 48 - initialSp argv envp + 8 * 2 ^ 12 - 1) / 128 * 128

/-- The strings, the pointers and the stack fit below `USERTOP`. -/
def Fits (argv envp : List (List UInt8)) : Prop :=
  stringsSize argv + stringsSize envp + 8 * (argv.length + envp.length + 4) + 15 + 8 * 2 ^ 12 ≤ 2 ^ 48

/-- The words from the stack pointer on. -/
def stackWords (argv envp : List (List UInt8)) : List UInt64 :=
  UInt64.ofNat argv.length :: (addrs (2 ^ 48) argv ++ (0 :: (addrs (2 ^ 48 - stringsSize argv) envp ++ [0])))

variable {argv envp : List (List UInt8)}

theorem Fits.layout (h : Fits argv envp) : stackBottom argv envp ≤ initialSp argv envp ∧
    initialSp argv envp + 8 * (argv.length + envp.length + 4) ≤ stringsBottom argv envp ∧
    stringsBottom argv envp + stringsSize envp + stringsSize argv = 2 ^ 48 ∧ initialSp argv envp % 16 = 0 ∧
    8 * 2 ^ 12 ≤ initialSp argv envp := by
  unfold Fits at h
  unfold stackBottom initialSp stringsBottom
  omega

/-- The pointers, the zeros behind them, and their number. -/
theorem pointers_spec {newsp sp : UInt64} (h : Attached m₀ F c pgdir s fr T) (hfit : Fits argv envp)
    (hnewsp : newsp.toNat = initialSp argv envp) (hsp : sp.toNat = stringsBottom argv envp)
    (hzero : ∀ k, newsp.toNat ≤ k → k < sp.toNat → byteAt s.vm T k = some 0)
    (hargv : HasStrings s.vm T (2 ^ 48) argv) (henvp : HasStrings s.vm T (2 ^ 48 - stringsSize argv) envp)
    (hnul : ∀ str ∈ argv ++ envp, 0 ∉ str) :
    wlp (do
      let sp ← setPointers c (newsp + 8 + 8 * (UInt64.ofNat argv.length + 1)) envp.length sp
      let _ ← setPointers c (newsp + 8) argv.length sp
      storeWord c newsp (UInt64.ofNat argv.length)) (fun _ t => ∃ fr' T',
        Keeps m₀ F s.vm pgdir fr T newsp.toNat sp.toNat t.vm fr' T' ∧
        HasWords t.vm T' newsp.toNat (stackWords argv envp) ∧ t.nested = s.nested) s := by
  obtain ⟨-, hroom, hbottom, h16, -⟩ := hfit.layout
  have hsum : sp.toNat = 2 ^ 48 - stringsSize argv - stringsSize envp := hsp
  obtain ⟨hnulA, hnulE⟩ := List.forall_mem_append.mp hnul
  have hargc : (UInt64.ofNat argv.length).toNat = argv.length := by
    rw [UInt64.toNat_ofNat']
    omega
  have hbase : (newsp + 8).toNat = newsp.toNat + 8 := by
    rw [UInt64.toNat_add]
    show (newsp.toNat + 8) % 2 ^ 64 = _
    omega
  have hbase' : (newsp + 8 + 8 * (UInt64.ofNat argv.length + 1)).toNat = newsp.toNat + 16 + 8 * argv.length := by
    rw [UInt64.toNat_add, hbase, UInt64.toNat_mul, UInt64.toNat_add, hargc]
    show (newsp.toNat + 8 + 8 * ((argv.length + 1) % 2 ^ 64) % 2 ^ 64) % 2 ^ 64 = _
    omega
  have hmapped : Mapped s.vm T newsp.toNat sp.toNat := fun k h1 h2 => ⟨0, hzero k h1 h2⟩
  have hzeros : ∀ a, newsp.toNat ≤ a → a + 8 ≤ sp.toNat → HasBytes s.vm T a (wordBytes 0) := by
    intro a h1 h2 i hi
    rw [wordBytes_length] at hi
    rw [hzero _ (by omega) (by omega), wordBytes_zero hi]
  rw [wlp, wp_bind]
  refine (setPointers_spec h hsum (by omega) (by omega) (by omega) (by omega)
    (hmapped.mono (by omega) (by omega)) henvp hnulE).imp ?_
  rw [hbase']
  rintro sp₁ t ⟨hsp₁, fr₁, T₁, hk₁, hw₁, hn₁⟩
  have ht := h.keeps hk₁
  rw [wp_bind]
  refine (setPointers_spec ht hsp₁ (by omega) le_rfl (by omega) (by omega)
    ((hmapped.keeps hk₁ (by omega)).mono (by omega) (by omega))
    (hargv.keeps hk₁ (.inr (by omega)) (by omega) le_rfl) hnulA).imp ?_
  rw [hbase]
  rintro - u ⟨-, fr₂, T₂, hk₂, hw₂, hn₂⟩
  have hu := ht.keeps hk₂
  refine (storeWord_spec hu (by omega) (by omega)
    (((hmapped.keeps hk₁ (by omega)).keeps hk₂ (by omega)).mono le_rfl (by omega))).imp ?_
  rintro - z ⟨fr₃, T₃, hk₃, hw₃, hn₃⟩
  have hlenA : (addrs (2 ^ 48) argv).length = argv.length := addrs_length
  have hlenE : (addrs (2 ^ 48 - stringsSize argv) envp).length = envp.length := addrs_length
  have hzero' : ∀ a, (a = newsp.toNat + 8 + 8 * argv.length ∨
      a = newsp.toNat + 16 + 8 * argv.length + 8 * envp.length) → HasBytes z.vm T₃ a (wordBytes 0) := by
    intro a ha
    have h0 := hzeros a (by omega) (by omega)
    refine ((h0.keeps hk₁ ?_ ?_).keeps hk₂ ?_ ?_).keeps hk₃ ?_ ?_
    all_goals rw [wordBytes_length]; omega
  refine ⟨fr₃, T₃, ((hk₁.mono (by omega) (by omega)).trans (hk₂.mono (by omega) (by omega))).trans
    (hk₃.mono le_rfl (by omega)), ⟨hw₃, ?_⟩, hn₃.trans (hn₂.trans hn₁)⟩
  rw [hasWords_append, HasWords, hasWords_append, hlenA, hlenE]
  refine ⟨hw₂.keeps hk₃ (.inr le_rfl) (by omega), hzero' _ (.inl rfl), ?_, hzero' _ (.inr (by omega)), trivial⟩
  rw [show newsp.toNat + 8 + 8 * argv.length + 8 = newsp.toNat + 16 + 8 * argv.length by omega]
  exact (hw₁.keeps hk₂ (.inr (by omega)) (by omega)).keeps hk₃ (.inr (by omega)) (by omega)

/-- The stack pointer below the strings. -/
theorem newSp_toNat {sp : UInt64} (hfit : Fits argv envp) (hsp : sp.toNat = stringsBottom argv envp) :
    ((sp - (UInt64.ofNat envp.length + UInt64.ofNat argv.length + 4) * 8) &&& ~~~0xF).toNat =
      initialSp argv envp := by
  obtain ⟨-, hroom, hbottom, -⟩ := hfit.layout
  have hcount : ((UInt64.ofNat envp.length + UInt64.ofNat argv.length + 4) * 8).toNat =
      8 * (argv.length + envp.length + 4) := by
    rw [UInt64.toNat_mul, UInt64.toNat_add, UInt64.toNat_add, UInt64.toNat_ofNat', UInt64.toNat_ofNat']
    show ((envp.length % 2 ^ 64 + argv.length % 2 ^ 64) % 2 ^ 64 + 4) % 2 ^ 64 * 8 % 2 ^ 64 = _
    omega
  have hle : (UInt64.ofNat envp.length + UInt64.ofNat argv.length + 4) * 8 ≤ sp := by
    rw [UInt64.le_iff_toNat_le, hcount]
    omega
  rw [toNat_and_not (k := 4) (by omega) rfl, UInt64.toNat_sub_of_le _ _ hle, hcount, hsp]
  rfl

/-- What is cleared below the stack pointer. -/
theorem stackBase_toNat {newsp base : UInt64} (hfit : Fits argv envp) (hnewsp : newsp.toNat = initialSp argv envp)
    (hbase : base = (userTop - newsp + 8 * 0x1000 - 1) &&& ~~~0x7F) :
    (userTop - base).toNat = stackBottom argv envp ∧
      (base - (userTop - newsp)).toNat = initialSp argv envp - stackBottom argv envp := by
  obtain ⟨hlow, hroom, hbottom, h16, h8⟩ := hfit.layout
  have htop : userTop.toNat = 2 ^ 48 := rfl
  have hdepth : (userTop - newsp).toNat = 2 ^ 48 - newsp.toNat := by
    rw [UInt64.toNat_sub_of_le]
    · rfl
    · rw [UInt64.le_iff_toNat_le]
      omega
  have hbase' : base.toNat = (2 ^ 48 - newsp.toNat + 8 * 2 ^ 12 - 1) / 128 * 128 := by
    have hadd : (userTop - newsp + 8 * 0x1000).toNat = 2 ^ 48 - newsp.toNat + 8 * 2 ^ 12 := by
      rw [UInt64.toNat_add, hdepth]
      show (2 ^ 48 - newsp.toNat + 32768) % 2 ^ 64 = _
      omega
    rw [hbase, toNat_and_not (k := 7) (by omega) rfl, UInt64.toNat_sub_of_le, hadd]
    · rfl
    · rw [UInt64.le_iff_toNat_le, hadd]
      show 1 ≤ _
      omega
  have hva : (userTop - base).toNat = stackBottom argv envp := by
    rw [UInt64.toNat_sub_of_le, htop, hbase', hnewsp]
    · rfl
    · rw [UInt64.le_iff_toNat_le]
      omega
  refine ⟨hva, ?_⟩
  rw [UInt64.toNat_sub_of_le, hdepth, ← hva, UInt64.toNat_sub_of_le]
  · omega
  · rw [UInt64.le_iff_toNat_le]
    omega
  · rw [UInt64.le_iff_toNat_le]
    omega

/-- The stack is built, and the memory below it stays as it is. -/
theorem buildStack_spec (h : Loading m₀ F c pgdir s fr T) (hne : pgdir ≠ ttbr0) (hfit : Fits argv envp)
    (hnul : ∀ str ∈ argv ++ envp, 0 ∉ str) :
    wlp (buildStack c pgdir argv envp) (fun sp t => sp.toNat = initialSp argv envp ∧ ∃ fr' T',
      Loading m₀ F c pgdir t fr' T' ∧ HasWords t.vm T' (initialSp argv envp) (stackWords argv envp) ∧
      HasStrings t.vm T' (2 ^ 48) (argv ++ envp) ∧ t.nested = s.nested ∧
      (∀ a, a ≠ ttbr0 → t.vm.pt a = s.vm.pt a) ∧
      ∀ k r, k < stackBottom argv envp → byteAt s.vm T k = some r → byteAt t.vm T' k = some r) s := by
  obtain ⟨hlow, hroom, hbottom, h16, h8⟩ := hfit.layout
  have htop : userTop.toNat = 2 ^ 48 := rfl
  have hsize : stringsSize (argv ++ envp) = stringsSize argv + stringsSize envp := stringsSize_append
  have h₀ := h.attach (r := s.vm.pt c.saved) hne
  rw [buildStack, wlp, wp_bind, wp_memory, wp_attachPgdir]
  -- The strings.
  have hfits : stringsSize (argv ++ envp) ≤ userTop.toNat := by omega
  have hpush := pushStrings_spec h₀.image hfits le_rfl
  rw [pushStrings_append, htop, hsize, wp_bind] at hpush
  rw [wp_bind, wp_memory]
  refine wp_mono hpush ?_ fun _ _ _ => trivial
  intro sp₁ v₁ hv₁
  rw [wp_bind, wp_memory]
  refine wp_mono hv₁ ?_ fun _ _ _ => trivial
  rintro sp v₂ ⟨hsp, fr₂, T₂, hk₂, hstrs⟩
  have hsum : sp.toNat = stringsBottom argv envp := by
    rw [hsp, stringsBottom]
    omega
  obtain ⟨newsp, hdef⟩ : ∃ newsp, newsp =
      (sp - (UInt64.ofNat envp.length + UInt64.ofNat argv.length + 4) * 8) &&& ~~~0xF := ⟨_, rfl⟩
  have hnewsp : newsp.toNat = initialSp argv envp := by rw [hdef, newSp_toNat hfit hsum]
  have hgap : (sp - newsp).toNat = sp.toNat - newsp.toNat := by
    refine UInt64.toNat_sub_of_le _ _ ?_
    rw [UInt64.le_iff_toNat_le]
    omega
  dsimp only
  rw [← hdef, wp_bind, wp_memory]
  refine wp_mono (copyout_image (p := .null) hk₂.image trivial (by omega)) ?_ fun _ _ _ => trivial
  rintro - v₃ ⟨-, fr₃, T₃, hk₃, hzero⟩
  rw [hgap, Nat.add_sub_cancel' (by omega)] at hk₃ hzero
  have hk := (hk₂.mono (show newsp.toNat ≤ sp.toNat by omega) le_rfl).trans (hk₃.mono le_rfl (by omega))
  rw [wp_bind, wp_memory, wp_attachPgdir]
  have h₃ : Loading m₀ F c pgdir { s with vm := v₃ } fr₃ T₃ := h₀.keeps hk
  have h₅ : Attached m₀ F c pgdir { s with vm := { v₃ with pt := Function.update v₃.pt ttbr0 (v₃.pt pgdir) } }
      fr₃ T₃ := by
    refine ⟨h₃.attach hne, ?_⟩
    dsimp only
    rw [Function.update_self, Function.update_of_ne hne]
  have hstrs₃ : HasStrings v₃ T₃ (2 ^ 48) (argv ++ envp) :=
    hstrs.keeps hk₃ (.inr (by omega)) (by omega) le_rfl
  obtain ⟨hargv, henvp⟩ := hasStrings_append.mp hstrs₃
  -- The pointers.
  have hp := pointers_spec h₅ hfit hnewsp hsum hzero (hargv.root (by omega)) (henvp.root (by omega)) hnul
  rw [wlp, wp_bind] at hp
  rw [wp_bind]
  refine hp.imp fun sp t ht => ?_
  rw [wp_bind] at ht ⊢
  refine ht.imp fun _ u hu => ?_
  rw [wp_bind]
  refine hu.imp ?_
  rintro - z ⟨fr₆, T₆, hk₆, hwords, hn⟩
  -- The pages below are mapped, and cleared.
  obtain ⟨base, hbase⟩ : ∃ base, base = (userTop - newsp + 8 * 0x1000 - 1) &&& ~~~0x7F := ⟨_, rfl⟩
  obtain ⟨hva, hlen⟩ := stackBase_toNat hfit hnewsp hbase
  rw [← hbase, wp_bind, wp_memory]
  refine wp_mono (copyout_image (p := .null) hk₆.image trivial (by omega)) ?_ fun _ _ _ => trivial
  rintro - y ⟨-, fr₇, T₇, hk₇, -⟩
  rw [hva, hlen, show stackBottom argv envp + (initialSp argv envp - stackBottom argv envp) = newsp.toNat by omega]
    at hk₇
  have hwords' : newsp.toNat + 8 * (stackWords argv envp).length ≤ 2 ^ 48 := by
    simp only [stackWords, List.length_cons, List.length_append, addrs_length, List.length_nil]
    omega
  have hstrs₇ : HasStrings y T₇ (2 ^ 48) (argv ++ envp) :=
    ((hstrs₃.root (by omega)).keeps hk₆ (.inr (by omega)) (by omega) le_rfl).keeps hk₇ (.inr (by omega)) (by omega) le_rfl
  refine wp_pure.mpr ⟨hnewsp, fr₇, T₇, (h₅.toLoading.keeps hk₆).keeps hk₇, ?_, hstrs₇, hn, fun a ha => ?_,
    fun k r hk' hr => ?_⟩
  · rw [← hnewsp]
    exact hwords.keeps hk₇ (.inr le_rfl) hwords'
  · dsimp only
    rw [hk₇.pt, hk₆.pt]
    dsimp only
    rw [Function.update_of_ne ha, hk.pt]
    exact Function.update_of_ne ha ..
  · refine hk₇.byte k r (by omega) (by omega) (hk₆.byte k r (by omega) (by omega) ?_)
    exact hk.byte k r (by omega) (by omega) hr

/-! ## What building the stack leaves alone -/

section Outside

variable {I : State → Prop} (hI : ∀ s v, I s → I { s with vm := v }) (hnested : ∀ s, I s → I { s with nested := true })
include hI

theorem preserves_memory {α : Type} {y : M α} : Preserves I (memory y) := fun s hs =>
  wp_memory.mpr (wp.always (fun _ v => hI s v hs) fun _ v => hI s v hs)

include hnested

theorem preserves_strlen : Preserves I (strlen c n va) := by
  have hstable : Stable c.saved I := ⟨fun s v hs _ => hI s v hs, hnested⟩
  induction n generalizing va with
  | zero => exact preserves_throw _
  | succ n ih =>
    refine hstable.access.bind fun _ => preserves_get.bind fun _ => .ite (fun _ => preserves_pure _) fun _ => ?_
    exact ih.bind fun _ => preserves_pure _

theorem preserves_storeWord : Preserves I (storeWord c va x) := by
  have hstable : Stable c.saved I := ⟨fun s v hs _ => hI s v hs, hnested⟩
  exact hstable.access.bind fun _ => preserves_memory hI

theorem preserves_setPointers {base sp : UInt64} : Preserves I (setPointers c base n sp) := by
  induction n generalizing sp with
  | zero => exact preserves_pure _
  | succ n ih =>
    exact (preserves_storeWord hI hnested).bind fun _ => (preserves_strlen hI hnested).bind fun _ => ih

theorem preserves_buildStack : Preserves I (buildStack c pgdir argv envp) := by
  refine (preserves_memory hI).bind fun _ => (preserves_memory hI).bind fun _ => ?_
  refine (preserves_memory hI).bind fun _ => (preserves_memory hI).bind fun _ => ?_
  refine (preserves_memory hI).bind fun _ => (preserves_setPointers hI hnested).bind fun _ => ?_
  refine (preserves_setPointers hI hnested).bind fun _ => (preserves_storeWord hI hnested).bind fun _ => ?_
  exact (preserves_memory hI).bind fun _ => preserves_pure _

end Outside

end ShikiOS.Kernel.Exec
