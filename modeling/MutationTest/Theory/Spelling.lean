import Mathlib.Data.List.Nodup
import Mathlib.Tactic.Common

/-! # The letters of string literals

A check of many literals goes through their letters. In the kernel the letters of a literal are slow
to find, but a literal unifies with `String.ofList` of them; so the literals are spelled first
(`map_toList_cons`, with `String.toList_ofList` for each of them), and the check is evaluated on the
lists of letters. -/

namespace Spelling

variable {l : List String} {l' : List (List Char)}

theorem map_toList_cons {a : String} {x : List Char} (ha : a.toList = x)
    (h : l.map String.toList = l') : (a :: l).map String.toList = x :: l' := by
  rw [List.map_cons, ha, h]

theorem forall_toList (check : List Char → Bool) (h : l.map String.toList = l')
    (hcheck : l'.all check) : ∀ w ∈ l.map String.toList, check w := by
  rw [h]
  exact List.all_eq_true.mp hcheck

/-- Strings are different where some part of their letters is. -/
theorem nodup_map {f : String → String} {part : List Char → List Char}
    (hf : ∀ s, f s = String.ofList (part s.toList)) (h : l.map String.toList = l')
    (hparts : (l'.map part).Nodup) : (l.map f).Nodup := by
  have hl : l.map f = (l'.map part).map String.ofList := by
    rw [← h, List.map_map, List.map_map]
    exact List.map_congr_left fun s _ => hf s
  rw [hl]
  exact hparts.map fun a b hab => by simpa using congrArg String.toList hab

end Spelling
