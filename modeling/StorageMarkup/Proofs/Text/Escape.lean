import StorageMarkup.Proofs.Text.Search
import StorageMarkup.Text.Escape

/-!
# Escaped characters

A character is written as itself or as a reference. Of what is written for it, either all
is of the reference, or it is the character and no reference is needed.

Results:
1. `escapeTextChar_of_not_mem`, `escapeQuotedChar_of_not_mem`: which characters stay.
2. `mem_escapeTextChar`, `mem_escapeQuotedChar`: where a written character comes from.
-/

namespace StorageMarkup

variable {c d : Char}

theorem escapeTextChar_of_not_mem (hc : c ∉ "&<>".toList) : escapeTextChar c = [c] := by
  have hne : ∀ d ∈ "&<>".toList, c ≠ d := fun d hd he => hc (he ▸ hd)
  rw [escapeTextChar, if_neg (hne '&' (by decide)), if_neg (hne '<' (by decide)),
    if_neg (hne '>' (by decide))]

theorem escapeQuotedChar_of_not_mem (hc : c ∉ "\"'&<>".toList) : escapeQuotedChar c = [c] := by
  have hne : ∀ d ∈ "\"'&<>".toList, c ≠ d := fun d hd he => hc (he ▸ hd)
  have htext : c ∉ "&<>".toList := fun hm =>
    hc ((by decide : "&<>".toList ⊆ "\"'&<>".toList) hm)
  rw [escapeQuotedChar, if_neg (hne '"' (by decide)), if_neg (hne '\'' (by decide)),
    escapeTextChar_of_not_mem htext]

theorem mem_escapeTextChar (h : d ∈ escapeTextChar c) :
    d ∈ "&ampltg;".toList ∨ d = c ∧ c ∉ "&<>".toList := by
  by_cases hc : c ∈ "&<>".toList
  · exact .inl ((by decide : ∀ c ∈ "&<>".toList, escapeTextChar c ⊆ "&ampltg;".toList) c hc h)
  · rw [escapeTextChar_of_not_mem hc] at h
    exact .inr ⟨List.mem_singleton.1 h, hc⟩

theorem mem_escapeQuotedChar (h : d ∈ escapeQuotedChar c) :
    d ∈ "&quot#x27ampltg;".toList ∨ d = c ∧ c ∉ "\"'&<>".toList := by
  by_cases hc : c ∈ "\"'&<>".toList
  · exact .inl ((by decide : ∀ c ∈ "\"'&<>".toList,
      escapeQuotedChar c ⊆ "&quot#x27ampltg;".toList) c hc h)
  · rw [escapeQuotedChar_of_not_mem hc] at h
    exact .inr ⟨List.mem_singleton.1 h, hc⟩

theorem escapeTextChar_ne_nil (c : Char) : escapeTextChar c ≠ [] := by
  by_cases hc : c ∈ "&<>".toList
  · exact (by decide : ∀ c ∈ "&<>".toList, escapeTextChar c ≠ []) c hc
  · rw [escapeTextChar_of_not_mem hc]
    exact List.cons_ne_nil c []

end StorageMarkup
