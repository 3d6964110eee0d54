import MutationTest.Main

/-! # Text files

What is written is what is read, under either convention for line ends. A carriage return in the
text is the exception: it is read as a line end. -/

namespace MutationTest

theorem fromUTF8?_toUTF8 (s : String) : String.fromUTF8? s.toUTF8 = some s :=
  dif_pos s.isValidUTF8

/-- Text without carriage returns survives either convention for line ends. -/
theorem universalNewlines_flatMap {sep : List Char} (hsep : sep = ['\n'] ∨ sep = ['\r', '\n'])
    {cs : List Char} (hcr : '\r' ∉ cs) :
    universalNewlines (cs.flatMap fun c => if c = '\n' then sep else [c]) = cs := by
  induction cs with
  | nil => rfl
  | cons c cs ih =>
    rw [List.mem_cons, not_or] at hcr
    rw [List.flatMap_cons]
    by_cases hc : c = '\n'
    · subst hc
      rcases hsep with rfl | rfl
      · simp [universalNewlines, ih hcr.2]
      · simp [universalNewlines, ih hcr.2]
    · rw [if_neg hc]
      simp [universalNewlines, ih hcr.2, Ne.symm hcr.1]

theorem return_not_mem_universalNewlines (cs : List Char) : '\r' ∉ universalNewlines cs := by
  fun_induction universalNewlines cs <;> simp_all [Ne.symm]

theorem return_not_mem_of_decodeText {content : ByteArray} {text : String}
    (h : decodeText content = .ok text) : '\r' ∉ text.toList := by
  rw [decodeText] at h
  split at h
  · cases h
    rw [String.toList_ofList]
    exact return_not_mem_universalNewlines _
  · cases h

theorem decodeText_encodeText {linesep text : String} (hsep : linesep = "\n" ∨ linesep = "\r\n")
    (hcr : '\r' ∉ text.toList) : decodeText (encodeText linesep text) = .ok text := by
  rw [decodeText, encodeText, fromUTF8?_toUTF8]
  dsimp only
  rw [String.toList_ofList, universalNewlines_flatMap ?_ hcr, String.ofList_toList]
  rcases hsep with rfl | rfl
  · exact .inl rfl
  · exact .inr rfl

/-- Where the file with the output of `ast.unparse` for the tree `t` parses, it gives back `t`. -/
def PyAst.ReadsBack (py : PyAst) (linesep : String) (t : Node) : Prop :=
  ∀ s m, decodeText (encodeText linesep (py.unparse t)) = .ok s → py.parse s = .ok m →
    m.root.strip = t.strip

theorem PyAst.RoundTrips.readsBack {py : PyAst} {linesep : String} {t : Node}
    (h : py.RoundTrips t) (hsep : linesep = "\n" ∨ linesep = "\r\n")
    (hcr : '\r' ∉ (py.unparse t).toList) : py.ReadsBack linesep t := by
  intro s m hs hm
  rw [decodeText_encodeText hsep hcr] at hs
  obtain rfl := Except.ok.inj hs
  exact h m hm

end MutationTest
