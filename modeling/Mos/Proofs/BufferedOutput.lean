import Mos.Libc.StdioWrite
import Mos.Machine.Run

namespace Mos.Libc
open Machine

/-- A call of `fnput`, which `fputc` and `fputs` make once and `fwrite` for each item, or one of
`fflush`. -/
inductive OutputEvent where
  | put (s : List UInt8)
  | fflush
  deriving DecidableEq, Repr

structure Output where
  writer : Writer := {}
  since : List UInt8 := []

def outputStep (o : Output) : OutputEvent → Option Output
  | .put s => (fnput o.writer s).map fun writer => ⟨writer, o.since ++ s⟩
  | .fflush => some ⟨(fflush o.writer).1, []⟩

variable {w : Writer} {s since : List UInt8}

/-- What is in the buffer and is put fits into a buffer of its size, of twice the old one's and
of 32 bytes, whichever is the largest. -/
def Fits (w : Writer) (s : List UInt8) : Prop :=
  w.len + s.length ≤ max (max s.length (w.buf.length * 2)) 32 ∧
    max s.length (w.buf.length * 2) < 2 ^ 31

def putFits (o : Output) : OutputEvent → Prop
  | .put s => Fits o.writer s
  | .fflush => True

structure Holding (w : Writer) (since : List UInt8) : Prop where
  len : w.len = since.length
  bytes : since <+: w.buf

theorem asInt_of_lt {n : Nat} (h : n < 2 ^ 31) : asInt n = n := by
  unfold asInt
  rw [Int.bmod_eq_of_le] <;> omega

theorem Holding.le (h : Holding w since) : w.len ≤ w.buf.length := h.len ▸ h.bytes.length_le

theorem Holding.take (h : Holding w since) : w.buf.take w.len = since := by
  rw [h.len]
  exact (List.prefix_iff_eq_take.mp h.bytes).symm

theorem Holding.grow (h : Holding w since) (hfit : Fits w s) :
    ∃ w', w.grow s.length = some w' ∧ Holding w' since ∧ w'.len + s.length ≤ w'.buf.length := by
  obtain ⟨hroom, hsmall⟩ := hfit
  have hcap : asInt (w.buf.length * 2) = w.buf.length * 2 :=
    mod_cast asInt_of_lt (n := w.buf.length * 2) (by omega)
  have hnew : (max (max (s.length : Int) (asInt (w.buf.length * 2))) minWriteBufLen).toNat =
      max (max s.length (w.buf.length * 2)) 32 := by
    rw [hcap, minWriteBufLen]
    omega
  unfold Writer.grow
  rw [hnew, if_neg (by omega)]
  refine ⟨_, rfl, ⟨h.len, h.bytes.trans (List.prefix_append ..)⟩, ?_⟩
  simp only [List.length_append, List.length_replicate]
  omega

theorem Holding.put (h : Holding w since) (hfit : Fits w s) :
    ∃ w', fnput w s = some w' ∧ Holding w' (since ++ s) := by
  have hle := h.le
  have hsmall := hfit.2
  have hremaining : asInt (w.buf.length - w.len) = w.buf.length - w.len := by
    rw [← Nat.cast_sub hle]
    exact asInt_of_lt (by omega)
  obtain ⟨w', hgrown, hold, hroom⟩ : ∃ w', (if asInt (w.buf.length - w.len) < asInt s.length then
      w.grow (asInt s.length) else some w) = some w' ∧ Holding w' since ∧
      w'.len + s.length ≤ w'.buf.length := by
    rw [asInt_of_lt (by omega : s.length < 2 ^ 31), hremaining]
    split
    · exact h.grow hfit
    · exact ⟨w, rfl, h, by omega⟩
  unfold fnput
  simp only [if_neg (by omega : ¬w.buf.length + 1 < w.len), hgrown, Option.bind_some, if_pos hroom]
  refine ⟨_, rfl, ?_, ?_⟩
  · simp [hold.len]
  · rw [hold.take]
    exact List.prefix_append ..

theorem Holding.flush (h : Holding w since) :
    (fflush w).2 = since ∧ Holding (fflush w).1 [] := by
  unfold fflush
  split
  · rename_i hzero
    have hnil : since = [] := List.length_eq_zero_iff.mp (h.len ▸ hzero)
    exact ⟨hnil.symm, hzero, List.nil_prefix⟩
  · exact ⟨h.take, rfl, List.nil_prefix⟩

/-- As long as what is put fits, it is stored inside of the buffer, and `fflush` writes what was
put since the last one. -/
theorem buffered_output {o : Output} (run : Run outputStep putFits {} o) :
    (∀ s, Fits o.writer s → ∃ w, fnput o.writer s = some w) ∧ (fflush o.writer).2 = o.since := by
  have hold : Holding o.writer o.since := by
    refine run.invariant (I := fun o => Holding o.writer o.since) ⟨rfl, List.nil_prefix⟩ ?_
    intro o e o' h hfit hstep
    cases e with
    | put s =>
      obtain ⟨w, hput, hold⟩ := h.put hfit
      simp only [outputStep, hput, Option.map_some, Option.some.injEq] at hstep
      subst hstep
      exact hold
    | fflush =>
      cases hstep
      exact h.flush.2
  refine ⟨?_, hold.flush.1⟩
  intro s hfit
  obtain ⟨w, hput, -⟩ := hold.put hfit
  exact ⟨w, hput⟩

theorem buffered_output_line :
    ∃ o, Run outputStep putFits {} o ∧ (fflush o.writer).2 = [104, 105, 10] :=
  have run : Run outputStep putFits {} _ := .tail (e := .put [10]) (.tail (e := .put [104, 105])
    .refl (by unfold putFits Fits; decide) rfl) (by unfold putFits Fits; decide) rfl
  ⟨_, run, (buffered_output run).2⟩

/-- Behind one byte there is no room for 64 others in the buffer of 64 bytes. -/
theorem output_overflows :
    ∃ o, Run outputStep (fun _ _ => True) {} o ∧ o.since = [7] ∧
      fnput o.writer (List.replicate 64 0) = none :=
  ⟨_, .tail (e := .put [7]) .refl trivial rfl, rfl, by decide⟩

end Mos.Libc
