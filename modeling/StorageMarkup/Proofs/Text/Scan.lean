import StorageMarkup.Text.Search

/-!
# Scanning with an exact recogniser

A recogniser is exact when it accepts a text just in case the text starts with
the written form of a valid value. Directives and placeholders are recognised so.
For an exact recogniser the scan of a text can be read off its pieces, nothing is
lost by it, and it can be cut wherever no written form reaches across.

Results:
1. `scan_written`, `scan_char`: the scan piece by piece.
2. `spell_scan`: the pieces spell the text that was scanned.
3. `scan_append`: scanning commutes with joining at a place no hit crosses.
-/

namespace StorageMarkup

variable {α : Type} {read : List Char → Option (α × Nat)} {write : α → List Char}
  {valid : α → Prop}

/-- `read` accepts what starts with the written form of a valid value, and nothing else. -/
structure Exact (read : List Char → Option (α × Nat)) (write : α → List Char)
    (valid : α → Prop) : Prop where
  read_eq_some {s : List Char} {a : α} {more : Nat} :
    read s = some (a, more) ↔ valid a ∧ write a <+: s ∧ (write a).length = more + 1

/-! ## Stretches -/

section

variable {p : Char → Bool} {u : List Char} {c : Char}

/-- A stretch ends at the first character that does not belong to it. -/
theorem takeWhile_append_stop (hu : ∀ d ∈ u, p d = true) (hc : p c = false) (s : List Char) :
    (u ++ c :: s).takeWhile p = u := by
  rw [List.takeWhile_append_of_pos hu, List.takeWhile_cons_of_neg (by rw [hc]; decide),
    List.append_nil]

theorem dropWhile_append_stop (hu : ∀ d ∈ u, p d = true) (hc : p c = false) (s : List Char) :
    (u ++ c :: s).dropWhile p = c :: s := by
  rw [List.dropWhile_append_of_pos hu, List.dropWhile_cons_of_neg (by rw [hc]; decide)]

end

section

variable {mark : Char} {rest : List Char}

/-- A text is a run of one character, which may be empty, and what comes behind it. -/
theorem eq_run_append (mark : Char) (s : List Char) :
    s = List.replicate (s.takeWhile (· = mark)).length mark ++ s.dropWhile (· = mark) := by
  have hrun : s.takeWhile (· = mark) = List.replicate (s.takeWhile (· = mark)).length mark :=
    List.eq_replicate_of_mem fun c hc => by
      simpa using List.all_eq_true.1 (List.all_takeWhile (p := (decide <| · = mark)) (l := s)) c hc
  rw [← hrun, List.takeWhile_append_dropWhile]

theorem head_dropWhile_ne (mark : Char) (s : List Char) :
    (s.dropWhile (· = mark)).head? ≠ some mark := by
  intro h
  have := List.head?_dropWhile_not (decide <| · = mark) s
  rw [h] at this
  simp at this

theorem exists_run (mark : Char) (s : List Char) :
    ∃ n rest, rest.head? ≠ some mark ∧ s = List.replicate n mark ++ rest :=
  ⟨_, _, head_dropWhile_ne mark s, eq_run_append mark s⟩

theorem takeWhile_run (h : rest.head? ≠ some mark) (n : Nat) :
    (List.replicate n mark ++ rest).takeWhile (· = mark) = List.replicate n mark := by
  cases rest with
  | nil => simp
  | cons c rest => exact takeWhile_append_stop (by simp) (by simpa using h) rest

theorem dropWhile_run (h : rest.head? ≠ some mark) (n : Nat) :
    (List.replicate n mark ++ rest).dropWhile (· = mark) = rest := by
  cases rest with
  | nil => simp
  | cons c rest => exact dropWhile_append_stop (by simp) (by simpa using h) rest

end

/-! ## The scan of a text, piece by piece -/

theorem scanFrom_eq_drop (read : List Char → Option (α × Nat)) (skip : Nat) (s : List Char) :
    scanFrom read skip s = scan read (s.drop skip) := by
  induction skip generalizing s with
  | zero => rfl
  | succ skip ih =>
    cases s with
    | nil => rfl
    | cons c rest => exact ih rest

/-- Where nothing is read, one character passes. -/
theorem scan_char {c : Char} {s : List Char} (h : read (c :: s) = none) :
    scan read (c :: s) = .char c :: scan read s := by
  show scanFrom read 0 (c :: s) = _
  rw [scanFrom, h]
  rfl

theorem scan_hit {c : Char} {s : List Char} {a : α} {more : Nat}
    (h : read (c :: s) = some (a, more)) :
    scan read (c :: s) = .hit a :: scan read (s.drop more) := by
  show scanFrom read 0 (c :: s) = _
  rw [scanFrom, h]
  exact congrArg (Piece.hit a :: ·) (scanFrom_eq_drop read more s)

/-- A stretch in which nothing is read passes. -/
theorem scan_append_of_none {u : List Char} (h : ∀ c ∈ u, ∀ s, read (c :: s) = none)
    (s : List Char) : scan read (u ++ s) = u.map .char ++ scan read s := by
  induction u with
  | nil => rfl
  | cons c u ih =>
    rw [List.forall_mem_cons] at h
    rw [List.cons_append, scan_char (h.1 _), ih h.2, List.map_cons, List.cons_append]

namespace Exact

theorem write_ne_nil (h : Exact read write valid) {a : α} {s : List Char} {more : Nat}
    (hr : read s = some (a, more)) : write a ≠ [] := by
  intro hn
  have := (h.read_eq_some.1 hr).2.2
  rw [hn] at this
  simp at this

/-- A written form is one hit, whatever follows it. -/
theorem scan_written (h : Exact read write valid) {a : α} (ha : valid a) (hne : write a ≠ [])
    (s : List Char) : scan read (write a ++ s) = .hit a :: scan read s := by
  cases hw : write a with
  | nil => exact absurd hw hne
  | cons c w =>
    have hr : read (c :: (w ++ s)) = some (a, w.length) :=
      h.read_eq_some.2 ⟨ha, hw ▸ List.prefix_append (c :: w) s, by rw [hw]; rfl⟩
    rw [List.cons_append, scan_hit hr, List.drop_left]

/-- What follows the hit at the start of a text. -/
theorem read_split (h : Exact read write valid) {c : Char} {s : List Char} {a : α} {more : Nat}
    (hr : read (c :: s) = some (a, more)) : c :: s = write a ++ s.drop more := by
  obtain ⟨_, ⟨rest, hrest⟩, hlen⟩ := h.read_eq_some.1 hr
  have : (c :: s).drop (more + 1) = rest := by
    rw [← hrest, ← hlen, List.drop_left]
  rw [List.drop_succ_cons] at this
  rw [this, hrest]

/-- A text is empty, or a character where nothing is read comes first, or a written form. -/
theorem induct (h : Exact read write valid) {P : List Char → Prop} (nil : P [])
    (char : ∀ c s, read (c :: s) = none → P s → P (c :: s))
    (hit : ∀ a s, valid a → write a ≠ [] → P s → P (write a ++ s)) (s : List Char) : P s := by
  induction hn : s.length using Nat.strongRecOn generalizing s with
  | ind n ih =>
    cases s with
    | nil => exact nil
    | cons c s =>
      cases hr : read (c :: s) with
      | none => exact char c s hr (ih s.length (by simp [← hn]) s rfl)
      | some found =>
        obtain ⟨a, more⟩ := found
        have hlt : (s.drop more).length < n := by
          rw [List.length_drop, ← hn, List.length_cons]
          omega
        rw [h.read_split hr]
        exact hit a _ (h.read_eq_some.1 hr).1 (h.write_ne_nil hr) (ih _ hlt _ rfl)

/-- The pieces of a scan spell the text. -/
theorem spell_scan (h : Exact read write valid) (s : List Char) :
    spell write (scan read s) = s := by
  induction s using h.induct with
  | nil => rfl
  | char c s hr ih => rw [scan_char hr, spell, ih]
  | hit a s ha hne ih => rw [h.scan_written ha hne, spell, ih]

/-- The hits of a scan are valid. -/
theorem valid_of_hit (h : Exact read write valid) {s : List Char} {a : α}
    (ha : Piece.hit a ∈ scan read s) : valid a := by
  induction s using h.induct with
  | nil => exact absurd ha List.not_mem_nil
  | char c s hr ih =>
    rw [scan_char hr, List.mem_cons] at ha
    rcases ha with ha | ha
    · cases ha
    · exact ih ha
  | hit b s hb hne ih =>
    rw [h.scan_written hb hne, List.mem_cons] at ha
    rcases ha with ha | ha
    · cases ha
      exact hb
    · exact ih ha

/-! ## Cuts -/

/-- A text can be cut in two before a character that stands inside no written form. -/
theorem scan_append (h : Exact read write valid) {c : Char}
    (hc : ∀ a, valid a → c ∉ (write a).tail) (u s : List Char) :
    scan read (u ++ c :: s) = scan read u ++ scan read (c :: s) := by
  induction hn : u.length using Nat.strongRecOn generalizing u with
  | ind n ih =>
    cases u with
    | nil => rfl
    | cons b u =>
      cases hr : read (b :: u) with
      | some hit =>
        obtain ⟨a, more⟩ := hit
        obtain ⟨ha, hp, hlen⟩ := h.read_eq_some.1 hr
        have hr' : read (b :: (u ++ c :: s)) = some (a, more) :=
          h.read_eq_some.2 ⟨ha, hp.trans (List.prefix_append (b :: u) (c :: s)), hlen⟩
        have hmore : more ≤ u.length := by
          have := hp.length_le
          rw [hlen, List.length_cons] at this
          omega
        have hlt : (u.drop more).length < n := by
          rw [List.length_drop, ← hn, List.length_cons]
          omega
        rw [List.cons_append, scan_hit hr', scan_hit hr, List.drop_append_of_le_length hmore,
          ih _ hlt _ rfl, List.cons_append]
      | none =>
        -- nothing starts here with more text behind it either
        have hr' : read (b :: (u ++ c :: s)) = none := by
          cases hr' : read (b :: (u ++ c :: s)) with
          | none => rfl
          | some hit =>
            obtain ⟨a, more⟩ := hit
            obtain ⟨ha, hp, hlen⟩ := h.read_eq_some.1 hr'
            rcases List.prefix_or_prefix_of_prefix hp (List.prefix_append (b :: u) (c :: s)) with
              hin | hout
            · rw [h.read_eq_some.2 ⟨ha, hin, hlen⟩] at hr
              cases hr
            · -- the written form would reach across the cut
              obtain ⟨w, hw⟩ := hout
              cases w with
              | nil =>
                rw [List.append_nil] at hw
                rw [h.read_eq_some.2 ⟨ha, hw ▸ List.prefix_refl _, hlen⟩] at hr
                cases hr
              | cons d w =>
                have hd : d = c := by
                  rw [← hw, ← List.cons_append] at hp
                  have := (List.prefix_append_right_inj (b :: u)).1 hp
                  exact (List.cons_prefix_cons.1 this).1
                refine absurd ?_ (hc a ha)
                rw [← hw, hd]
                simp
        rw [List.cons_append, scan_char hr', scan_char hr, ih u.length (by simp [← hn]) u rfl,
          List.cons_append]

end Exact

/-! ## Spelled pieces -/

theorem spell_append (write : α → List Char) (ps qs : List (Piece α)) :
    spell write (ps ++ qs) = spell write ps ++ spell write qs := by
  induction ps with
  | nil => rfl
  | cons p ps ih =>
    cases p with
    | char c => rw [List.cons_append, spell, spell, ih, List.cons_append]
    | hit a => rw [List.cons_append, spell, spell, ih, List.append_assoc]

theorem spell_chars (write : α → List Char) (w : List Char) : spell write (w.map .char) = w := by
  induction w with
  | nil => rfl
  | cons c w ih => rw [List.map_cons, spell, ih]

theorem infix_spell (write : α → List Char) {a : α} {ps : List (Piece α)} (h : .hit a ∈ ps) :
    write a <:+: spell write ps := by
  obtain ⟨before, after, rfl⟩ := List.append_of_mem h
  rw [spell_append, spell]
  exact ⟨spell write before, spell write after, List.append_assoc _ _ _⟩

/-- The hits are the same wherever the count starts. -/
theorem map_snd_hitsFrom (width : α → Nat) (ps : List (Piece α)) (m n : Nat) :
    (hitsFrom width m ps).map Prod.snd = (hitsFrom width n ps).map Prod.snd := by
  induction ps generalizing m n with
  | nil => rfl
  | cons p ps ih =>
    cases p with
    | char c => exact ih _ _
    | hit a => exact congrArg (a :: ·) (ih _ _)

theorem hit_of_mem_hitsFrom {width : α → Nat} {start n : Nat} {ps : List (Piece α)} {a : α}
    (h : (n, a) ∈ hitsFrom width start ps) : .hit a ∈ ps := by
  induction ps generalizing start with
  | nil => exact absurd h List.not_mem_nil
  | cons p ps ih =>
    cases p with
    | char c => exact List.mem_cons_of_mem _ (ih h)
    | hit b =>
      rcases List.mem_cons.1 h with he | h
      · cases he
        exact List.mem_cons_self
      · exact List.mem_cons_of_mem _ (ih h)

/-- A hit of a scan stands in the text. -/
theorem Exact.infix_of_hit (h : Exact read write valid) {s : List Char} {a : α}
    (ha : .hit a ∈ scan read s) : write a <:+: s := by
  have := infix_spell write ha
  rwa [h.spell_scan] at this

/-! ## Replacing -/

theorem replaceAll_singleton (d : Char) (new s : List Char) :
    replaceAll [d] new s = s.flatMap fun c => if c = d then new else [c] := by
  induction s with
  | nil => rfl
  | cons c s ih =>
    rw [replaceAll] at ih
    rw [replaceAll, List.flatMap_cons, ← ih]
    by_cases hc : c = d
    · have hread : (fun t => if [d].isPrefixOf t then some ((), [d].length - 1) else none)
          (c :: s) = some ((), 0) := by simp [List.isPrefixOf, hc]
      rw [scan_hit hread, if_pos hc, spell, List.drop_zero]
    · have hread : (fun t => if [d].isPrefixOf t then some ((), [d].length - 1) else none)
          (c :: s) = none := by simp [List.isPrefixOf, Ne.symm hc]
      rw [scan_char hread, if_neg hc, spell, List.singleton_append]

theorem mem_spell {c : Char} {ps : List (Piece α)} :
    c ∈ spell write ps ↔ .char c ∈ ps ∨ ∃ a, .hit a ∈ ps ∧ c ∈ write a := by
  induction ps with
  | nil => simp [spell]
  | cons p ps ih =>
    cases p with
    | char d => simp [spell, ih, or_assoc]
    | hit a => simp [spell, ih, or_left_comm, or_and_right, exists_or]

theorem exact_needle {needle : List Char} (hne : needle ≠ []) :
    Exact (fun t => if needle.isPrefixOf t then some ((), needle.length - 1) else none)
      (fun _ => needle) fun _ => True where
  read_eq_some {s a more} := by
    have hlen := List.length_pos_iff.2 hne
    rw [Option.ite_none_right_eq_some, List.isPrefixOf_iff_prefix]
    constructor
    · rintro ⟨hp, he⟩
      cases he
      exact ⟨trivial, hp, (Nat.sub_add_cancel hlen).symm⟩
    · rintro ⟨-, hp, hmore⟩
      exact ⟨hp, by rw [hmore, Nat.add_sub_cancel]⟩

/-- A character that is in neither of the two strings stays, and none comes in. -/
theorem mem_replaceAll {c : Char} {needle new s : List Char} (hne : needle ≠ [])
    (hc : c ∉ needle) (hnew : c ∉ new) : c ∈ replaceAll needle new s ↔ c ∈ s := by
  have hs := (exact_needle hne).spell_scan s
  rw [replaceAll, mem_spell]
  conv => rhs; rw [← hs, mem_spell]
  simp only [hc, hnew]

/-- Taking the hits out of a text brings no character into it. -/
theorem mem_of_mem_spell_scanFrom {c : Char} {s : List Char} {skip : Nat}
    (h : c ∈ spell (fun _ => []) (scanFrom read skip s)) : c ∈ s := by
  fun_induction scanFrom read skip s with
  | case1 => exact h
  | case2 _ _ rest ih => exact List.mem_cons_of_mem _ (ih h)
  | case3 d rest a more _ ih => exact List.mem_cons_of_mem d (ih h)
  | case4 d rest _ ih =>
    rcases List.mem_cons.1 h with rfl | h
    · exact List.mem_cons_self
    · exact List.mem_cons_of_mem d (ih h)

theorem mem_of_mem_replaceAll_nil {c : Char} {needle s : List Char}
    (h : c ∈ replaceAll needle [] s) : c ∈ s :=
  mem_of_mem_spell_scanFrom h

end StorageMarkup
