import BtClient.Lib.Fault
import BtClient.Lib.Splice
import BtClient.Lib.Words

/-!
# Texts appended with `snprintf`

The idiom `written += snprintf(buff + written, bufsize - written, ...)`, call by
call. `snprintf` returns the length the text has, not the length it had room
for, so `written` may get past `bufsize`, and then the unsigned difference
wraps. A text whose length is no `int` is answered with `-1`.

A `Printer` keeps the calls that were made; what they leave in memory is found
by running them.
-/

namespace CLib

/-- A call `snprintf(buff + written, bufsize - written, ...)` that prints `text`.
Pointers are offsets. -/
structure PrintCall where
  buff : Nat
  bufsize : Nat
  written : Nat
  text : List UInt8
  deriving DecidableEq, Repr

/-- The pointer it gets. -/
def PrintCall.pointer (c : PrintCall) : Nat := (c.buff + c.written) % 2 ^ 64

/-- The size it gets. -/
def PrintCall.size (c : PrintCall) : Nat := sizeSub c.bufsize c.written

/-- What it returns, converted to `size_t`. -/
def PrintCall.result (c : PrintCall) : Nat :=
  if c.text.length < 2 ^ 31 then c.text.length else 2 ^ 64 - 1

/-- The memory after it: the text, cut to the size less one, and a zero byte. -/
def PrintCall.write (c : PrintCall) (mem : List UInt8) : Except Fault (List UInt8) :=
  if c.size = 0 then .ok mem
  else
    let out := c.text.take (c.size - 1) ++ [0]
    if c.pointer + out.length ≤ mem.length then .ok (splice mem c.pointer out)
    else .error .outOfBounds

/-- The variables of a function that prints, and the calls made so far. -/
structure Printer where
  buff : Nat
  bufsize : Nat
  written : Nat
  calls : List PrintCall
  deriving DecidableEq, Repr

/-- At the beginning of the function. -/
def Printer.start (buff bufsize : Nat) : Printer := ⟨buff, bufsize, 0, []⟩

/-- `written += snprintf(buff + written, bufsize - written, ...)`. -/
def Printer.print (p : Printer) (text : List UInt8) : Printer :=
  let c : PrintCall := ⟨p.buff, p.bufsize, p.written, text⟩
  { p with written := (p.written + c.result) % 2 ^ 64, calls := p.calls ++ [c] }

/-- `written += f(buff + written, bufsize - written)`. -/
def Printer.call (p : Printer) (f : Nat → Nat → Printer) : Printer :=
  let q := f ((p.buff + p.written) % 2 ^ 64) (sizeSub p.bufsize p.written)
  { p with written := (p.written + q.written) % 2 ^ 64, calls := p.calls ++ q.calls }

/-- Several texts, one after the other. -/
def Printer.printAll (p : Printer) (texts : List (List UInt8)) : Printer :=
  texts.foldl Printer.print p

/-- The texts of the calls, as a buffer with room for all of them would have them. -/
def Printer.printed (p : Printer) : List UInt8 := (p.calls.map PrintCall.text).flatten

/-- The memory after the calls. -/
def runCalls (calls : List PrintCall) (mem : List UInt8) : Except Fault (List UInt8) :=
  calls.foldlM (fun mem c => c.write mem) mem

/-- A call within a buffer of `bufsize` bytes at offset 0: the difference does not
wrap, the pointer is inside and the size is not more than what remains. -/
structure PrintCall.Inside (bufsize : Nat) (c : PrintCall) : Prop where
  noWrap : c.written ≤ c.bufsize
  pointer : c.pointer ≤ bufsize
  size : c.size ≤ bufsize - c.pointer

/-- Every call is within the buffer, and so is the length returned. -/
structure Printer.Fits (bufsize : Nat) (p : Printer) : Prop where
  inside : ∀ c ∈ p.calls, c.Inside bufsize
  returned : p.written ≤ bufsize

/-! ## The text -/

@[simp] theorem printed_start (buff bufsize : Nat) :
    (Printer.start buff bufsize).printed = [] := rfl

@[simp] theorem printed_print (p : Printer) (t : List UInt8) :
    (p.print t).printed = p.printed ++ t := by
  simp [Printer.printed, Printer.print]

@[simp] theorem printed_call (p : Printer) (f : Nat → Nat → Printer) :
    (p.call f).printed = p.printed ++
      (f ((p.buff + p.written) % 2 ^ 64) (sizeSub p.bufsize p.written)).printed := by
  simp [Printer.printed, Printer.call]

theorem printed_printAll (p : Printer) (texts : List (List UInt8)) :
    (p.printAll texts).printed = p.printed ++ texts.flatten := by
  induction texts generalizing p with
  | nil => simp [Printer.printAll]
  | cons t texts ih =>
    have hrest : p.printAll (t :: texts) = (p.print t).printAll texts := rfl
    rw [hrest, ih, printed_print, List.flatten_cons, List.append_assoc]

/-! ## The offsets -/

/-- Texts that `snprintf` can count. -/
def Countable (texts : List (List UInt8)) : Prop := ∀ t ∈ texts, t.length < 2 ^ 31

theorem length_flatten_le {texts : List (List UInt8)} {n : Nat} (h : ∀ t ∈ texts, t.length ≤ n) :
    texts.flatten.length ≤ n * texts.length := by
  induction texts with
  | nil => exact Nat.zero_le _
  | cons t texts ih =>
    have ht := h t (by simp)
    have hrest := ih fun u hu => h u (by simp [hu])
    rw [List.flatten_cons, List.length_append, List.length_cons, Nat.mul_succ]
    omega

/-- The calls for texts that are printed one after the other, with `written` at
`w` to begin with. -/
def callsFrom (buff bufsize : Nat) : Nat → List (List UInt8) → List PrintCall
  | _, [] => []
  | w, t :: texts => ⟨buff, bufsize, w, t⟩ :: callsFrom buff bufsize (w + t.length) texts

theorem print_eq {p : Printer} {t : List UInt8} (ht : t.length < 2 ^ 31)
    (hsum : p.written + t.length < 2 ^ 64) :
    p.print t = ⟨p.buff, p.bufsize, p.written + t.length,
      p.calls ++ [⟨p.buff, p.bufsize, p.written, t⟩]⟩ := by
  simp only [Printer.print, PrintCall.result, if_pos ht, Nat.mod_eq_of_lt hsum]

theorem mem_calls_print {p : Printer} {c : PrintCall} (h : c ∈ p.calls) (t : List UInt8) :
    c ∈ (p.print t).calls := List.mem_append_left _ h

/-- **Printing texts**: `written` counts them, and every call finds it at the
length of those before. -/
theorem printAll_eq {texts : List (List UInt8)} (htexts : Countable texts) :
    ∀ {p : Printer}, p.written + texts.flatten.length < 2 ^ 64 →
      p.printAll texts = ⟨p.buff, p.bufsize, p.written + texts.flatten.length,
        p.calls ++ callsFrom p.buff p.bufsize p.written texts⟩ := by
  induction texts with
  | nil => intro p _; simp [Printer.printAll, callsFrom]
  | cons t texts ih =>
    intro p hsum
    rw [List.flatten_cons, List.length_append] at hsum ⊢
    have hrest : p.printAll (t :: texts) = (p.print t).printAll texts := rfl
    rw [hrest, print_eq (htexts t (by simp)) (by omega),
      ih (fun u hu => htexts u (by simp [hu])) (by simp only; omega)]
    simp [callsFrom, Nat.add_assoc]

theorem mem_callsFrom {buff bufsize w : Nat} {texts : List (List UInt8)} {c : PrintCall}
    (h : c ∈ callsFrom buff bufsize w texts) :
    c.buff = buff ∧ c.bufsize = bufsize ∧ w ≤ c.written ∧
      c.written + c.text.length ≤ w + texts.flatten.length := by
  induction texts generalizing w with
  | nil => cases h
  | cons t texts ih =>
    rw [List.flatten_cons, List.length_append]
    rcases List.mem_cons.mp h with rfl | hrest
    · exact ⟨rfl, rfl, Nat.le_refl _, by simp only; omega⟩
    · obtain ⟨hbuff, hsize, hlo, hhi⟩ := ih hrest
      exact ⟨hbuff, hsize, by omega, by omega⟩

/-- Texts that there is room for are printed inside the buffer; `buff` and
`bufsize` may be what an earlier text has left of it. -/
theorem callsFrom_inside {buff bufsize w total : Nat} {texts : List (List UInt8)}
    (hbuffer : buff + bufsize = total) (htotal : total < 2 ^ 64)
    (hroom : w + texts.flatten.length ≤ bufsize) :
    ∀ c ∈ callsFrom buff bufsize w texts, c.Inside total := by
  intro c hc
  obtain ⟨hbuff, hsize, hlo, hhi⟩ := mem_callsFrom hc
  have hpointer : c.pointer = buff + c.written := by
    rw [PrintCall.pointer, hbuff, Nat.mod_eq_of_lt (by omega)]
  have hleft : c.size = bufsize - c.written := by
    rw [PrintCall.size, hsize, sizeSub_of_le (by omega) (by omega)]
  exact ⟨by omega, by omega, by omega⟩

theorem inside_of_le {bufsize w : Nat} (hw : w ≤ bufsize) (hsize : bufsize < 2 ^ 64)
    (text : List UInt8) : PrintCall.Inside bufsize ⟨0, bufsize, w, text⟩ := by
  have hpointer : PrintCall.pointer ⟨0, bufsize, w, text⟩ = w := by
    show (0 + w) % 2 ^ 64 = w
    rw [Nat.zero_add, Nat.mod_eq_of_lt (by omega)]
  have hleft : PrintCall.size ⟨0, bufsize, w, text⟩ = bufsize - w := sizeSub_of_le hw hsize
  exact ⟨hw, by omega, by omega⟩

/-! ## The memory -/

theorem runCalls_cons (c : PrintCall) (calls : List PrintCall) (mem : List UInt8) :
    runCalls (c :: calls) mem = (do runCalls calls (← c.write mem)) := rfl

theorem runCalls_singleton (c : PrintCall) (mem : List UInt8) : runCalls [c] mem = c.write mem := by
  rw [runCalls, List.foldlM_cons]
  cases c.write mem <;> rfl

theorem runCalls_append (calls more : List PrintCall) (mem : List UInt8) :
    runCalls (calls ++ more) mem = (do runCalls more (← runCalls calls mem)) :=
  List.foldlM_append

/-- A call does not change the length of the memory. -/
theorem length_write {c : PrintCall} {mem mem' : List UInt8} (h : c.write mem = .ok mem') :
    mem'.length = mem.length := by
  by_cases hsize : c.size = 0
  · rw [PrintCall.write, if_pos hsize] at h
    cases h
    rfl
  · simp only [PrintCall.write, if_neg hsize] at h
    by_cases hinside : c.pointer + (c.text.take (c.size - 1) ++ [0]).length ≤ mem.length
    · rw [if_pos hinside] at h
      cases h
      exact length_splice hinside
    · rw [if_neg hinside] at h
      cases h

theorem length_runCalls {calls : List PrintCall} : ∀ {mem mem' : List UInt8},
    runCalls calls mem = .ok mem' → mem'.length = mem.length := by
  induction calls with
  | nil =>
    intro mem mem' h
    cases h
    rfl
  | cons c calls ih =>
    intro mem mem' h
    rw [runCalls_cons, seq_returns_iff] at h
    obtain ⟨mem₁, hwrite, hrest⟩ := h
    rw [ih hrest, length_write hwrite]

/-- A text that there is room for, behind those already printed. -/
theorem PrintCall.write_eq {c : PrintCall} {pre printed room : List UInt8}
    (hbuff : c.buff = pre.length) (hwritten : c.written = printed.length)
    (hsize : c.bufsize ≤ printed.length + room.length)
    (hroom : printed.length + c.text.length < c.bufsize)
    (hmem : pre.length + c.bufsize < 2 ^ 64) :
    c.write (pre ++ (printed ++ room)) =
      .ok (pre ++ (printed ++ c.text ++ 0 :: room.drop (c.text.length + 1))) := by
  have hpointer : c.pointer = (pre ++ printed).length := by
    rw [PrintCall.pointer, hbuff, hwritten, List.length_append, Nat.mod_eq_of_lt (by omega)]
  have hleft : c.size = c.bufsize - printed.length := by
    rw [PrintCall.size, hwritten, sizeSub_of_le (by omega) (by omega)]
  have hout : c.text.take (c.bufsize - printed.length - 1) ++ [0] = c.text ++ [0] := by
    rw [List.take_of_length_le (by omega)]
  have hinside : (pre ++ printed).length + (c.text ++ [0]).length ≤
      (pre ++ (printed ++ room)).length := by
    simp only [List.length_append, List.length_singleton]
    omega
  have hsplice : splice (pre ++ (printed ++ room)) (pre ++ printed).length (c.text ++ [0]) =
      pre ++ (printed ++ c.text ++ 0 :: room.drop (c.text.length + 1)) := by
    have hlength : (c.text ++ [0]).length = c.text.length + 1 := List.length_append
    rw [← List.append_assoc, splice, List.take_left, List.drop_length_add_append, hlength]
    simp
  rw [PrintCall.write, hleft, if_neg (by omega), hpointer, hout, if_pos hinside, hsplice]

/-- **What is left in memory**: the texts one behind the other, and a zero byte. -/
theorem runCalls_printed {texts : List (List UInt8)} (hne : texts ≠ []) {bufsize : Nat}
    {pre : List UInt8} (hmem : pre.length + bufsize < 2 ^ 64) :
    ∀ {printed room : List UInt8}, bufsize ≤ printed.length + room.length →
      printed.length + texts.flatten.length < bufsize →
      ∃ room', runCalls (callsFrom pre.length bufsize printed.length texts)
          (pre ++ (printed ++ room)) = .ok (pre ++ (printed ++ texts.flatten ++ 0 :: room')) := by
  induction texts with
  | nil => exact absurd rfl hne
  | cons t texts ih =>
    intro printed room hsize hroom
    rw [List.flatten_cons, List.length_append] at hroom
    have hwrite := PrintCall.write_eq (c := ⟨pre.length, bufsize, printed.length, t⟩) rfl rfl hsize
      (show printed.length + t.length < bufsize by omega) hmem
    simp only [callsFrom, runCalls_cons, hwrite, ok_bind]
    cases texts with
    | nil => exact ⟨room.drop (t.length + 1), by simp [callsFrom, runCalls]⟩
    | cons u texts =>
      have hdrop : (room.drop (t.length + 1)).length = room.length - (t.length + 1) :=
        List.length_drop
      have hsize' : bufsize ≤ (printed ++ t).length + (0 :: room.drop (t.length + 1)).length := by
        rw [List.length_append, List.length_cons, hdrop]
        omega
      have hroom' : (printed ++ t).length + (u :: texts).flatten.length < bufsize := by
        rw [List.length_append]
        omega
      obtain ⟨room', hrun⟩ := ih (by simp) hsize' hroom'
      rw [List.length_append] at hrun
      refine ⟨room', ?_⟩
      have hflatten : (t :: u :: texts).flatten = t ++ (u :: texts).flatten := rfl
      rw [hrun, hflatten, List.append_assoc printed t]

end CLib
