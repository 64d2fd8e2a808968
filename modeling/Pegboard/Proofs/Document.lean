import Pegboard.Document
import Pegboard.Proofs.Text.Edit

/-!
# Changes of a document

A change that is not refused comes to an edit of the text, and moves the document on to the next
version. To set the text that is there already is no change.
-/

namespace Pegboard.Document

variable {d d' : Document} {start stop : Nat} {text : String}

theorem replaceRange_eq_ok (h : d.replaceRange start stop text = .ok d') :
    Text.replaceRange d.text start stop text = .ok d'.text ∧ d'.version = d.version + 1 := by
  unfold replaceRange at h
  obtain ⟨text', htext, h⟩ := bind_eq_ok.mp h
  obtain rfl := Except.ok.inj h
  exact ⟨htext, rfl⟩

theorem apply_eq_ok {c : Change} {e : Text.Edit} (h : d.apply c = .ok (e, d')) :
    d.resolve c = .ok e ∧ d.replaceRange e.start e.stop e.text = .ok d' := by
  unfold apply at h
  obtain ⟨e', hresolve, h⟩ := bind_eq_ok.mp h
  obtain ⟨d'', hreplace, h⟩ := bind_eq_ok.mp h
  obtain ⟨rfl, rfl⟩ := Prod.mk.inj (Except.ok.inj h)
  exact ⟨hresolve, hreplace⟩

/-- A document whose text can be edited is edited so. -/
theorem replaceRange_of_text {text' : String}
    (h : Text.replaceRange d.text start stop text = .ok text') :
    d.replaceRange start stop text = .ok ⟨text', d.version + 1⟩ := by
  unfold replaceRange
  rw [h]
  rfl

/-- What a change comes to can be made. -/
theorem apply_of_resolve {c : Change} {e : Text.Edit} (h : d.resolve c = .ok e) :
    ∃ d', d.apply c = .ok (e, d') := by
  have hresolve := h
  unfold resolve at h
  obtain ⟨⟨⟩, hcheck, h⟩ := bind_eq_ok.mp h
  obtain rfl := Except.ok.inj h
  obtain ⟨text', htext⟩ := Text.replaceRange_of_checkRange hcheck c.text
  unfold apply
  rw [hresolve]
  exact ⟨_, congrArg (fun x => x >>= fun d' => pure (_, d')) (replaceRange_of_text htext)⟩

@[simp] theorem setText_text (d : Document) (text : String) : (d.setText text).text = text := by
  unfold setText
  split
  · assumption
  · rfl

/-- The version stays exactly if the text does. -/
theorem setText_eq (d : Document) (text : String) :
    d.text = text ∧ d.setText text = d ∨
      d.text ≠ text ∧ d.setText text = ⟨text, d.version + 1⟩ := by
  unfold setText
  split
  · exact .inl ⟨‹_›, rfl⟩
  · exact .inr ⟨‹_›, rfl⟩

end Pegboard.Document
