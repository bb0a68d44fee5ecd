import HybridCheck.Proofs.Printing

/-!
# Identifiers in formula text

What may be declared is told by a pattern, and what is one word of formula text by a scan that looks
ahead. They agree but for an underscore at the end: before a window and at the end of the text it is
a symbol of its own, and an underscore alone always is. So an identifier that ends in an underscore
is not read when the text ends behind it, but it is read when a blank stands there.
-/

namespace HybridCheck

theorem isIdentifier_of_append {s t : String} (h : isIdentifier (s ++ t) = true) (hne : s ≠ "") :
    isIdentifier s = true := by
  obtain ⟨c, cs, hs⟩ : ∃ c cs, s.toList = c :: cs :=
    List.exists_cons_of_ne_nil fun h => hne (String.toList_eq_nil_iff.1 h)
  unfold isIdentifier at h ⊢
  rw [String.toList_append, hs, List.cons_append] at h
  rw [hs]
  simp only [List.all_append, Bool.and_eq_true] at h ⊢
  exact ⟨h.1, h.2.1⟩

namespace Token

variable {id : String}

/-- At the end of a text an identifier is one token unless it ends in an underscore. -/
theorem scan_identifier (valid : isIdentifier id = true) (hlast : id.toList.getLast? ≠ some '_') :
    scan (byteChars id) = .ok [⟨.ident, id, 0⟩] := by
  have lone : id ≠ "_" := by
    rintro rfl
    exact hlast rfl
  have rest : scanFrom (0 + id.length) [] = .ok [] := by rw [scanFrom]
  have := scanFrom_identifier valid rfl (fun under => absurd under lone)
    (fun last => absurd last hlast) rest
  rwa [List.append_nil, ← byteChars_of_ascii (isAscii_identifier valid)] at this

/-- Before a blank an identifier is one token unless it is an underscore alone. -/
theorem scan_identifier_blank (valid : isIdentifier id = true) (lone : id ≠ "_") :
    scan (byteChars (id ++ " ")) = .ok [⟨.ident, id, 0⟩] := by
  have rest : scanFrom (0 + id.length) [' '] = .ok [] := by
    rw [scanFrom, if_pos (by decide), scanFrom]
  have token := scanFrom_identifier valid (identLength_of_not rfl) (fun under => absurd under lone)
    (fun _ => rfl) rest
  have ascii : IsAscii (id ++ " ").toList := by
    rw [String.toList_append, isAscii_append]
    exact ⟨isAscii_identifier valid, by simp⟩
  rw [byteChars_of_ascii ascii, String.toList_append]
  exact token

/-- At the end of a text an identifier gives up its last underscore. -/
theorem scan_identifier_underscore (valid : isIdentifier (id ++ "_") = true) :
    scan (byteChars (id ++ "_")) =
      .ok ((if id = "" then [] else [⟨.ident, id, 0⟩]) ++ [⟨.symbol, "_", id.length⟩]) := by
  have symbol : scanFrom (0 + id.length) ['_'] = .ok [⟨.symbol, "_", id.length⟩] := by
    rw [Nat.zero_add]
    exact scanFrom_cons (n := 0) rfl rfl (by rw [List.drop_nil, scanFrom])
  rw [byteChars_of_ascii (isAscii_identifier valid), String.toList_append]
  split
  · next hid =>
    subst hid
    exact symbol
  · next hid =>
    exact scanFrom_identifier (isIdentifier_of_append valid hid) rfl (fun _ => rfl) (fun _ => rfl)
      symbol

end Token

namespace Formula

open HybridCheck.Token HybridCheck.Parser

variable {scope : Scope} {s id : String}

theorem ofText_identifier (hs : scan (byteChars s) = .ok [⟨.ident, id, 0⟩])
    (valid : isIdentifier id = true) (free : id ∉ ["true", "false", "not"])
    (declared : ∃ d, scope.get? id = some d ∧ d.isProp = true) :
    ofText scope s = .ok (.prop id) := by
  let cx : Context := ⟨scope, false, (byteChars s).length⟩
  obtain ⟨_, hunary⟩ : ∃ hlt, unary cx [⟨.ident, id, 0⟩] = .ok ⟨.prop id, [], hlt⟩ :=
    unary_prop valid free declared rfl rfl
  rw [ofText]
  exact ofChars_eq_ok.2 ⟨_, _, hs, implication_of_unary (by simp [headText]) hunary, rfl, rfl⟩

/-- No formula ends in an underscore. -/
theorem ofText_ne_ok {ts : List Token} {n : Nat}
    (hs : scan (byteChars s) = .ok (ts ++ [⟨.symbol, "_", n⟩])) (f : Formula) :
    ofText scope s ≠ .ok f := by
  intro h
  obtain ⟨us, p, hus, hp, hrest, -⟩ := ofChars_eq_ok.1 h
  obtain rfl := Except.ok.inj (hus.symm.trans hs)
  have nested := nested_of_implication (worded_of_scanFrom hs) hp hrest
  exact nested.last _ (by rw [List.getLast?_concat]; rfl) ⟨rfl, rfl⟩

/-- An identifier that does not end in an underscore is one token of formula text, and it is read as
the proposition it stands for, unless it is a constant or a negation. An underscore at its end is a
symbol at the end of the text, where no formula is read, and a part of the identifier before a
blank, where it is read again, unless the identifier is an underscore alone. -/
theorem identifier_read (id : String) (valid : isIdentifier id = true) :
    (id.toList.getLast? ≠ some '_' → scan (byteChars id) = .ok [⟨.ident, id, 0⟩]) ∧
    (∀ name, id = name ++ "_" → scan (byteChars id) =
      .ok ((if name = "" then [] else [⟨.ident, name, 0⟩]) ++ [⟨.symbol, "_", name.length⟩]) ∧
      ∀ scope f, ofText scope id ≠ .ok f) ∧
    (id ≠ "_" → scan (byteChars (id ++ " ")) = .ok [⟨.ident, id, 0⟩]) ∧
    ∀ scope : Scope, id ∉ ["true", "false", "not"] →
      (∃ d, scope.get? id = some d ∧ d.isProp = true) →
      (id.toList.getLast? ≠ some '_' → ofText scope id = .ok (.prop id)) ∧
      (id ≠ "_" → ofText scope (id ++ " ") = .ok (.prop id)) := by
  refine ⟨scan_identifier valid, ?_, scan_identifier_blank valid, fun scope free declared => ?_⟩
  · rintro name rfl
    have split := scan_identifier_underscore valid
    exact ⟨split, fun scope f => ofText_ne_ok split f⟩
  · exact ⟨fun hlast => ofText_identifier (scan_identifier valid hlast) valid free declared,
      fun lone => ofText_identifier (scan_identifier_blank valid lone) valid free declared⟩

def underlined : Scope := [("low__", ⟨.bool, .logical, true⟩), ("p_", ⟨.bool, .logical, true⟩)]

theorem identifier_read_low :
    isIdentifier "low__" = true ∧
    scan (byteChars "low__") = .ok [⟨.ident, "low_", 0⟩, ⟨.symbol, "_", 4⟩] ∧
    scan (byteChars "low__ ") = .ok [⟨.ident, "low__", 0⟩] ∧
    ofText underlined "low__ " = .ok (.prop "low__") := by
  have valid : isIdentifier "low__" = true := by decide
  obtain ⟨-, split, blank, read⟩ := identifier_read "low__" valid
  exact ⟨valid, (split "low_" rfl).1, blank (by decide),
    (read underlined (by decide) ⟨_, rfl, rfl⟩).2 (by decide)⟩

/-- An identifier that is declared, but not read. -/
theorem identifier_not_read :
    isIdentifier "p_" = true ∧ "p_" ∉ reserved ∧
    underlined.get? "p_" = some ⟨.bool, .logical, true⟩ ∧
    scan (byteChars "p_") ≠ .ok [⟨.ident, "p_", 0⟩] ∧
    ofText underlined "p_" ≠ .ok (.prop "p_") := by
  have split : scan (byteChars "p_") = .ok ([⟨.ident, "p", 0⟩] ++ [⟨.symbol, "_", 1⟩]) := by cbv
  refine ⟨by decide, by decide, rfl, ?_, ofText_ne_ok split _⟩
  rw [split]
  simp

end Formula

end HybridCheck
