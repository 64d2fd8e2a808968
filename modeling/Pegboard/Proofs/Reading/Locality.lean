import Pegboard.Proofs.Reading

/-!
# A reading depends on what it looked at

Two texts that agree on all that a reading looked at are read alike, as long as the rules applied
on the way come to the same in both. Nothing in front of the place of a reading can matter, since a
reading never sees it; so this is what lets the outcome of an application be carried from one text
to another, or be looked up instead of worked out.
-/

namespace Pegboard

open Text

/-- What `m` reads of `cs`, looking at `n` bytes at most, applies only rules that come to the same
for `m'` at the same places of `cs'`. -/
structure Reading.Known (m m' : Meaning) (n : Nat) (cs cs' : List Char) (r : Reading) : Prop where
  examined : r.examined ≤ n
  calls : ∀ c ∈ r.calls, m' c.rule (dropBytes cs' c.offset) = m c.rule (dropBytes cs c.offset)

/-- Where the rules applied are known, the two read alike. -/
def ReadsSame (m m' : Meaning) (read read' : List Char → Reading) : Prop :=
  ∀ n cs cs', SameFor n cs cs' → (read cs).Known m m' n cs cs' → read' cs' = read cs

namespace Reading

variable {m m' : Meaning} {n : Nat} {cs cs' : List Char} {a b : Reading} {t : Taken}

/-- What is known of a reading in two parts is known of each part. -/
theorem Known.of_followed (h : (a.followed t b).Known m m' n cs cs') (hs : SameFor n cs cs')
    (ha : a.Fits m cs) (ht : a.taken? = some t ∨ t = .nothing)
    (hb : b.Fits m (dropBytes cs t.size)) :
    a.Known m m' n cs cs' ∧ SameFor (n - t.size) (dropBytes cs t.size) (dropBytes cs' t.size) ∧
      b.Known m m' (n - t.size) (dropBytes cs t.size) (dropBytes cs' t.size) := by
  have hmax : max a.examined (t.size + b.examined) ≤ n := h.examined
  have hcut : Cuts cs t.size := by
    rcases ht with ht | rfl
    · exact (ha.taken t ht).1
    · exact .zero cs
  obtain ⟨hcut', hdrop⟩ := hs.drop hcut (by omega)
  refine ⟨⟨by omega, fun c hc => h.calls c (List.mem_append_left _ hc)⟩, hdrop, by omega, ?_⟩
  intro c hc
  have hcall := h.calls (c.shift t.size) (List.mem_append_right _ (List.mem_map_of_mem hc))
  obtain ⟨hc, hle⟩ := hb.calls c hc
  have hc' : Cuts (dropBytes cs' t.size) c.offset := (hdrop.drop hc (by omega)).1
  simp only [Call.shift] at hcall
  rwa [(hcut.add hc).2, (hcut'.add hc').2] at hcall

theorem Known.zero (h : a.Known m m' n cs cs') (rule : String) (hc : ⟨0, rule⟩ ∈ a.calls) :
    m' rule cs' = m rule cs := by
  simpa using h.calls _ hc

end Reading

namespace ReadsSame

open Reading

variable {m m' : Meaning} {read read' : List Char → Reading}

theorem any : ReadsSame m m' Reading.any Reading.any := by
  intro n cs cs' hs h
  cases cs with
  | nil => rw [hs.eq_nil (Nat.lt_of_lt_of_le Nat.one_pos h.examined)]
  | cons c cs =>
      obtain ⟨cs'', rfl⟩ := hs.eq_cons (Nat.lt_of_lt_of_le c.utf8Size_pos h.examined)
      rfl

theorem range (lo hi : Char) : ReadsSame m m' (Reading.range lo hi) (Reading.range lo hi) := by
  intro n cs cs' hs h
  cases cs with
  | nil => rw [hs.eq_nil (Nat.lt_of_lt_of_le Nat.one_pos h.examined)]
  | cons c cs =>
      have hsize : (Reading.range lo hi (c :: cs)).examined = c.utf8Size := by
        rw [Reading.range]
        split <;> rfl
      have hn := h.examined
      rw [hsize] at hn
      obtain ⟨cs'', rfl⟩ := hs.eq_cons (Nat.lt_of_lt_of_le c.utf8Size_pos hn)
      rfl

theorem terminal (s : String) : ReadsSame m m' (Reading.terminal s) (Reading.terminal s) := by
  intro n cs cs' hs h
  have hsize : (Reading.terminal s cs).examined =
      if byteSize cs < s.utf8ByteSize then byteSize cs + 1 else s.utf8ByteSize := by
    rw [Reading.terminal]
    split <;> rfl
  have hn := h.examined
  rw [hsize] at hn
  by_cases hlt : byteSize cs < s.utf8ByteSize
  · rw [if_pos hlt] at hn
    -- a text too short for it was looked at to its end
    rw [hs.eq_of_byteSize_lt hn]
  · rw [if_neg hlt] at hn
    rw [Reading.terminal, Reading.terminal, hs.isPrefixOf_eq (by rwa [byteSize_toList]),
      if_neg hlt, if_neg (mt (hs.byteSize_lt_iff hn).mp hlt)]

theorem endOfInput : ReadsSame m m' Reading.endOfInput Reading.endOfInput := by
  intro n cs cs' hs h
  cases cs with
  | nil => rw [hs.eq_nil (Nat.lt_of_lt_of_le Nat.one_pos h.examined)]
  | cons c cs =>
      obtain ⟨cs'', rfl⟩ := hs.eq_cons (Nat.lt_of_lt_of_le Nat.one_pos h.examined)
      rfl

theorem application (rule : String) :
    ReadsSame m m' (fun cs => (m rule cs).reading rule) (fun cs => (m' rule cs).reading rule) := by
  intro n cs cs' hs h
  dsimp only
  rw [h.zero rule (by simp [Application.reading])]

theorem spaces : ReadsSame m m' (Reading.spaces m) (Reading.spaces m') := by
  intro n cs cs' hs h
  rw [Reading.spaces, Reading.spaces,
    h.zero "spaces" (by simp [Reading.spaces, Application.reading])]

theorem andThen (first first' : List Char → Reading) (next next' : Taken → List Char → Reading)
    (hfits : ∀ cs, (first cs).Fits m cs) (hnext : ∀ t cs, (next t cs).Fits m cs)
    (h₁ : ReadsSame m m' first first') (h₂ : ∀ t, ReadsSame m m' (next t) (next' t)) :
    ReadsSame m m' (fun cs => (first cs).andThen fun t => next t (dropBytes cs t.size))
      (fun cs => (first' cs).andThen fun t => next' t (dropBytes cs t.size)) := by
  intro n cs cs' hs h
  dsimp only at h ⊢
  cases ht : (first cs).taken? with
  | none =>
      rw [andThen_of_none ht] at h ⊢
      have heq := h₁ n cs cs' hs h
      rw [heq, andThen_of_none ht]
  | some t =>
      rw [andThen_of_some ht] at h ⊢
      obtain ⟨ha, hs', hb⟩ := h.of_followed hs (hfits cs) (.inl ht) (hnext t _)
      have heq := h₁ n cs cs' hs ha
      rw [heq, andThen_of_some ht, h₂ t _ _ _ hs' hb]

theorem orElse {other other' : List Char → Reading} (hfits : ∀ cs, (read cs).Fits m cs)
    (hother : ∀ cs, (other cs).Fits m cs) (h₁ : ReadsSame m m' read read')
    (h₂ : ReadsSame m m' other other') :
    ReadsSame m m' (fun cs => (read cs).orElse (other cs))
      (fun cs => (read' cs).orElse (other' cs)) := by
  intro n cs cs' hs h
  dsimp only at h ⊢
  cases ht : (read cs).taken? with
  | none =>
      rw [orElse_of_none ht] at h ⊢
      obtain ⟨ha, hs', hb⟩ := h.of_followed hs (hfits cs) (.inr rfl)
        (by simpa [Taken.nothing] using hother cs)
      have heq := h₁ n cs cs' hs ha
      simp only [Taken.nothing, dropBytes_zero] at hs' hb
      rw [heq, orElse_of_none ht, h₂ _ cs cs' hs' hb]
  | some t =>
      rw [orElse_of_some ht] at h ⊢
      have heq := h₁ n cs cs' hs h
      rw [heq, orElse_of_some ht]

theorem spaced (hm : m.Fits) (skip : Bool) (hfits : ∀ cs, (read cs).Fits m cs)
    (h : ReadsSame m m' read read') :
    ReadsSame m m' (Reading.spaced m skip read) (Reading.spaced m' skip read') := by
  cases skip with
  | false => simpa only [ReadsSame, Reading.spaced, Bool.false_eq_true, if_false] using h
  | true =>
      have := andThen _ _ (fun _ => read) (fun _ => read')
        (fits_spaces hm) (fun _ => hfits) (spaces (m := m)) fun _ => h
      simpa only [ReadsSame, Reading.spaced, if_true] using this

theorem rounds (op : Repeat) (hfits : ∀ cs, (read cs).Fits m cs)
    (h : ReadsSame m m' read read') (matched : Bool) :
    ReadsSame m m' (Reading.rounds op read matched) (Reading.rounds op read' matched) := by
  intro n cs cs' hs hk
  induction hlen : cs.length using Nat.strong_induction_on generalizing n matched cs cs' with
  | _ k ih =>
      subst hlen
      cases ht : (read cs).taken? with
      | none =>
          rw [rounds_of_none ht] at hk ⊢
          have hknown : (read cs).Known m m' n cs cs' := by
            cases matched <;> exact ⟨hk.examined, hk.calls⟩
          have heq := h n cs cs' hs hknown
          rw [rounds_of_none (by rw [heq, ht]), heq]
      | some t =>
          by_cases hmore : op ≠ .opt ∧ 0 < t.size ∧ cs ≠ []
          · rw [rounds_more ht hmore] at hk ⊢
            obtain ⟨ha, hs', hb⟩ :=
              hk.of_followed hs (hfits cs) (.inl ht) (fits_rounds hfits op true _)
            have heq := h n cs cs' hs ha
            -- what was taken of the one text is there in the other one as well
            have hcs' : cs' ≠ [] := by
              have hcut := (hfits cs).taken t ht
              have hle := (hs.drop hcut.1 (hcut.2.trans ha.examined)).1.le
              rintro rfl
              simp at hle
              omega
            rw [rounds_more (by rw [heq, ht]) ⟨hmore.1, hmore.2.1, hcs'⟩, heq,
              ih _ (dropBytes_length_lt hmore.2.2 hmore.2.1) true _ _ _ hs' hb rfl]
          · rw [rounds_last ht hmore] at hk ⊢
            have heq := h n cs cs' hs hk
            have hstop : ¬ (op ≠ .opt ∧ 0 < t.size ∧ cs' ≠ []) := by
              rintro ⟨hop, hpos, -⟩
              refine hmore ⟨hop, hpos, ?_⟩
              rintro rfl
              have := ((hfits []).taken t ht).1.le
              simp at this
              omega
            rw [rounds_last (by rw [heq, ht]) hstop, heq]

theorem map {f : Reading → Reading} (h : ReadsSame m m' read read')
    (hexamined : ∀ r, (f r).examined = r.examined) (hcalls : ∀ r, (f r).calls = r.calls) :
    ReadsSame m m' (fun cs => f (read cs)) (fun cs => f (read' cs)) := by
  intro n cs cs' hs hk
  dsimp only at hk ⊢
  rw [h n cs cs' hs ⟨hexamined (read cs) ▸ hk.examined, hcalls (read cs) ▸ hk.calls⟩]

end ReadsSame

open ReadsSame in
mutual

theorem Expr.read_same {m : Meaning} (hm : m.Fits) (m' : Meaning) (syntactic : Bool) :
    ∀ e : Expr, ReadsSame m m' (e.read m syntactic) (e.read m' syntactic)
  | .any => by
      have h : ReadsSame m m' Reading.any Reading.any := ReadsSame.any
      simpa only [ReadsSame, Expr.read] using spaced hm syntactic Reading.fits_any h
  | .endOfInput => by
      have h : ReadsSame m m' Reading.endOfInput Reading.endOfInput := ReadsSame.endOfInput
      simpa only [ReadsSame, Expr.read] using spaced hm syntactic Reading.fits_endOfInput h
  | .terminal s => by
      have h : ReadsSame m m' (Reading.terminal s) (Reading.terminal s) := ReadsSame.terminal s
      simpa only [ReadsSame, Expr.read] using spaced hm syntactic (Reading.fits_terminal s) h
  | .range lo hi => by
      have h : ReadsSame m m' (Reading.range lo hi) (Reading.range lo hi) := ReadsSame.range lo hi
      simpa only [ReadsSame, Expr.read] using spaced hm syntactic (Reading.fits_range lo hi) h
  | .apply rule => by
      have h : ReadsSame m m' (fun cs => (m rule cs).reading rule)
          fun cs => (m' rule cs).reading rule := application rule
      simpa only [ReadsSame, Expr.read] using
        spaced hm (syntactic && rule != "spaces") (Reading.fits_application hm rule) h
  | .alt es => by
      have h := Expr.readFirst_same hm m' syntactic es
      simpa only [ReadsSame, Expr.read] using h
  | .seq es => by
      have h := Expr.readEach_same hm m' syntactic es
      simpa only [ReadsSame, Expr.read] using h
  | .iter op e => by
      have h := rounds op (Expr.read_fits hm syntactic e) (Expr.read_same hm m' syntactic e)
        (op != .plus)
      simpa only [ReadsSame, Expr.read, Reading.iterated] using
        h.map (f := fun r => r.asTree fun t => .iter (op == .opt) t.size t.trees)
          (fun _ => rfl) fun _ => rfl
  | .not e => by
      have h := Expr.read_same hm m' syntactic e
      simpa only [ReadsSame, Expr.read] using
        h.map (f := fun r => r.negated e.text)
          (fun r => by rw [Reading.negated]; split <;> rfl)
          fun r => by rw [Reading.negated]; split <;> rfl
  | .look e => by
      have h := Expr.read_same hm m' syntactic e
      simpa only [ReadsSame, Expr.read] using
        h.map (f := Reading.restored) (fun _ => rfl) fun _ => rfl
  | .lex e => by
      have h := Expr.read_same hm m' false e
      simpa only [ReadsSame, Expr.read] using h

theorem Expr.readFirst_same {m : Meaning} (hm : m.Fits) (m' : Meaning) (syntactic : Bool) :
    ∀ es : List Expr,
      ReadsSame m m' (Expr.readFirst m syntactic es) (Expr.readFirst m' syntactic es)
  | [] => by simp [ReadsSame, Expr.readFirst]
  | e :: es => by
      have h := orElse (Expr.read_fits hm syntactic e) (Expr.readFirst_fits hm syntactic es)
        (Expr.read_same hm m' syntactic e) (Expr.readFirst_same hm m' syntactic es)
      simpa only [ReadsSame, Expr.readFirst] using h

theorem Expr.readEach_same {m : Meaning} (hm : m.Fits) (m' : Meaning) (syntactic : Bool) :
    ∀ es : List Expr,
      ReadsSame m m' (Expr.readEach m syntactic es) (Expr.readEach m' syntactic es)
  | [] => by simp [ReadsSame, Expr.readEach]
  | e :: es => by
      have h := andThen _ _ (fun _ => Expr.readEach m syntactic es)
        (fun _ => Expr.readEach m' syntactic es) (Expr.read_fits hm syntactic e)
        (fun _ => Expr.readEach_fits hm syntactic es)
        (Expr.read_same hm m' syntactic e) fun _ => Expr.readEach_same hm m' syntactic es
      simpa only [ReadsSame, Expr.readEach] using h

end

end Pegboard
