import ShikiOS.Common.Format
import ShikiOS.Common.Spinlock

/-!
# Messages of the kernel (`kernel/printk.c`)

Any number of callers print messages, on several processors and in interrupt handlers; others,
such as the echo of the console, put characters on the same line without `printk_lock`. All
calls of `_print_int` share one static buffer.

Results:
* `printk_whole_messages`: the characters that `printk` puts on the line are those of whole
  messages in the order in which the lock was taken, each call's message once.
-/

namespace ShikiOS.Printk

open ShikiOS.Lib ShikiOS.Format ShikiOS.SpinLock

/-! ## Model -/

/-- A call of `printk` whose arguments are of the kinds that its format asks for, and what it chars. -/
structure Message where
  pieces : List Piece
  args : List Arg
  chars : List UInt8
  canonical : Canonical pieces
  text_eq : text pieces args = some chars

def Message.fmt (m : Message) : List UInt8 := source m.pieces ++ [0]

/-- What `_vprintf` (printk.c:18-23) does with the lock; `_put_char` (lines 12-16) is `.put`. -/
def vprintf (m : Message) : Prog := vformat 0 m.fmt m.args

/-- Whole messages one after the other. -/
def transcript {π : Type} (es : List (π × Message)) : List (π × UInt8) :=
  es.flatMap fun x => x.2.chars.map (x.1, ·)

variable {π : Type} [DecidableEq π] {s : State π Message Buf UInt8} {p q : π} {m : Message} {k : Prog}
  {buf : Buf}

theorem vprintf_finishes (m : Message) (buf : Buf) : (vprintf m).Finishes buf :=
  (vformat_text m.canonical m.text_eq [] buf).1

theorem vprintf_output (m : Message) (buf : Buf) : (vprintf m).output buf = m.chars :=
  (vformat_text m.canonical m.text_eq [] buf).2

omit [DecidableEq π] in
theorem replay_vprintf (es : List (π × Message)) : (replay vprintf buf es).1 = transcript es :=
  replay_of_const vprintf_output

/-- However the callers are interleaved: as long as nobody prints, the line has whole messages, in
    the order in which the callers took the lock; while one prints, a part of its message follows,
    and its own steps lead to its release of the lock. Each caller's messages are there in the
    order of its calls, without the one for which it waits. -/
theorem printk_whole_messages (h : Run (next vprintf) anyStep (init buf) s) :
    (∀ p, callsOf p s.called = callsOf p s.entered ++ (s.pc p).waiting) ∧
      ((∀ p, ¬ (s.pc p).IsInside) → s.printed = transcript s.entered) ∧
      ∀ p m k, s.pc p = .inside m k →
        (∀ q, (s.pc q).IsInside → q = p) ∧
        (∃ t, Run (next vprintf) (fun _ a => a = .step p) s t ∧ t.pc p = .idle ∧ t.locked = false) ∧
        ∃ es pre, s.entered = es ++ [(p, m)] ∧ pre <+: m.chars ∧
          s.printed = transcript es ++ pre.map (p, ·) := by
  have hserial := Serial.run h
  refine ⟨hserial.ordered, ?_, ?_⟩
  · intro ho
    rw [← replay_vprintf s.entered, ← (hserial.free ho).replay]
  · intro p m k hpc
    obtain ⟨es, pre, hw⟩ := hserial.within hpc
    have hout := hw.output
    rw [vprintf_output] at hout
    refine ⟨hw.single, ?_, es, pre, hw.entered, ⟨_, hout.symm⟩, ?_⟩
    · exact releases hpc (hw.finishes.mp (vprintf_finishes m _))
    · rw [hw.printed, replay_vprintf]

/-- `Core %lld` with the number of a processor. -/
def hello (n : Fin 2) : Message where
  pieces := [.lit (ch 'C'), .lit (ch ' '), .int .lld]
  args := [.word n.val]
  chars := [ch 'C', ch ' ', digit n]
  canonical := ⟨by decide, fun h => absurd h (by decide), by decide, fun h => absurd h (by decide), trivial⟩
  text_eq := by revert n; decide

/-- Two processors say hello at the same time; the second one is faster. -/
theorem printk_whole_messages_hello : ∃ s : State (Fin 2) Message Buf UInt8,
    Run (next vprintf) anyStep (init fun _ => 0) s ∧ s.line.length = 7 ∧
      s.printed = (hello 1).chars.map (1, ·) ++ (hello 0).chars.map (0, ·) := by
  have hexec : ((exec (next vprintf) (init fun _ => 0) ([.call 0 (hello 0), .call 1 (hello 1), .step 0,
      .step 1, .step 1, .step 0] ++ List.replicate 3 (.step 1) ++ [.step 0, .other 65] ++
      List.replicate 3 (.step 1) ++ List.replicate 8 (.step 0)) :
      Option (State (Fin 2) Message Buf UInt8))).map
      (fun s => (s.line.length, decide (∀ p, ¬ (s.pc p).IsInside), s.entered.map fun x => (x.1, x.2.chars))) =
      some (7, true, [(1, (hello 1).chars), (0, (hello 0).chars)]) := by
    decide +kernel
  obtain ⟨s, hs, hx⟩ := Option.map_eq_some_iff.mp hexec
  obtain ⟨hlen, hx⟩ := Prod.mk.inj hx
  obtain ⟨hout, hentered⟩ := Prod.mk.inj hx
  have hrun := Run.of_exec hs
  refine ⟨s, hrun, hlen, ?_⟩
  have hmap := congrArg (fun es : List (Fin 2 × List UInt8) => es.flatMap fun x => x.2.map (x.1, ·)) hentered
  rw [(printk_whole_messages hrun).2.1 (of_decide_eq_true hout), transcript, ← List.flatMap_map (f := fun x :
    Fin 2 × Message => (x.1, x.2.chars)) (g := fun x => x.2.map (x.1, ·))]
  exact hmap.trans (by simp)

end ShikiOS.Printk
