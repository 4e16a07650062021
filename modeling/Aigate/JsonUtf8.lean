import Aigate.JsonEdit
import Aigate.Utf8

/-!
# UTF-8 in JSON texts

The writer escapes bytes below 128 only, so the text of a tree whose strings are UTF-8 is
UTF-8, and a reader that checks the text takes it.
-/
namespace Aigate.JsonUtf8
open Text JsonTree JsonText JsonEdit Utf8

theorem escapeChar_of_high {c : Char} (h : 128 ≤ c.toNat) : escapeChar c = [c] := by
  have hne : ∀ d : Char, d.toNat < 128 → c ≠ d := by
    rintro d hd rfl
    omega
  exact escapeChar_self (by omega) (hne '"' (by decide)) (hne '\\' (by decide))

theorem escapeChar_ascii {c : Char} (h : c.toNat < 128) : ∀ d ∈ escapeChar c, d.toNat < 128 := by
  intro d hd
  rcases (mem_escapeChar hd).2 with rfl | hascii
  · exact h
  · exact hascii

/-- Escaping a string leaves it UTF-8. -/
theorem utf8Check_escaped {s : Bytes} (h : utf8Check s = true) :
    utf8Check (s.flatMap escapeChar) = true := by
  refine utf8Check_induction (P := fun s => utf8Check (s.flatMap escapeChar) = true) rfl
    (fun c v hc ih => ?_) (fun u v hhigh hu ih => ?_) h
  · rw [List.flatMap_cons, utf8Check_append (utf8Check_of_ascii (escapeChar_ascii hc))]
    exact ih
  · have hself : u.flatMap escapeChar = u.flatMap fun c => [c] :=
      List.flatMap_congr fun c hc => escapeChar_of_high (hhigh c hc)
    rw [List.flatMap_append, hself, List.flatMap_singleton', utf8Check_append hu]
    exact ih

theorem utf8Check_quoted {s : Bytes} (h : utf8Check s = true) : utf8Check (quoted s) = true := by
  rw [quoted, List.cons_append, utf8Check_cons (by decide),
    utf8Check_append (utf8Check_escaped h), utf8Check_cons (by decide)]
  rfl

/-- The text of a tree whose strings are UTF-8 is UTF-8. -/
theorem utf8Check_dumps {j : Json} (h : ∀ s ∈ strings j, utf8Check s = true) :
    utf8Check (dumps j) = true := by
  refine dumps_closed (P := fun s => utf8Check s = true) ?_ ?_ j fun s hs =>
    utf8Check_quoted (h s hs)
  · intro s t hs ht
    rw [utf8Check_append hs, ht]
  · exact fun s hs => utf8Check_of_ascii fun c hc => (hs c hc).2

theorem utf8Check_ascii (s : String) (h : s.toList.all (fun c => c.toNat < 128) = true) :
    utf8Check (ascii s) = true := by
  refine utf8Check_of_ascii fun c hc => ?_
  unfold ascii at hc
  exact of_decide_eq_true (List.all_eq_true.mp h c hc)

end Aigate.JsonUtf8
