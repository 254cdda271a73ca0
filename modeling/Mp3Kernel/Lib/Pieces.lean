import Mathlib.Data.List.Basic

/-!
# Lines cut to a width

A text is cut into lines at its separators, and a line into pieces of no more than a width. Where
every line fits, the pieces are the lines (`pieces_eq_splitOn`). A reader that holds one width of
the text at a time can take the pieces off one by one (`pieces_line`, `pieces_full`).
-/

namespace Pieces

variable {β : Type} [DecidableEq β] (sep : β) (width : Nat)

/-- An element before the first piece. -/
def extend (c : β) (ls : List (List β)) : List (List β) := (c :: ls.headD []) :: ls.tail

/-- The pieces of a text, the first of which has `room` for so many elements. -/
def piecesFrom : Nat → List β → List (List β)
  | _, [] => [[]]
  | 0, c :: cs =>
    if c = sep then [] :: piecesFrom width cs
    else [] :: extend c (piecesFrom (width - 1) cs)
  | room + 1, c :: cs =>
    if c = sep then [] :: piecesFrom width cs else extend c (piecesFrom room cs)

/-- The pieces of a text. -/
def pieces (cs : List β) : List (List β) := piecesFrom sep width width cs

variable {sep width} {l rest : List β} {c : β} {room : Nat}

theorem piecesFrom_sep : piecesFrom sep width room (sep :: rest) = [] :: pieces sep width rest := by
  cases room <;> simp [piecesFrom, pieces]

theorem piecesFrom_ne_nil (cs : List β) : piecesFrom sep width room cs ≠ [] := by
  cases cs with
  | nil => cases room <;> exact List.cons_ne_nil _ _
  | cons c cs =>
    cases room with
    | zero =>
      unfold piecesFrom
      split <;> exact List.cons_ne_nil _ _
    | succ room =>
      unfold piecesFrom
      split <;> exact List.cons_ne_nil _ _

/-- Elements that have room in the first piece come before it. -/
theorem piecesFrom_append (clean : sep ∉ l) (fits : l.length ≤ room) :
    piecesFrom sep width room (l ++ rest) =
      (l ++ (piecesFrom sep width (room - l.length) rest).headD []) ::
        (piecesFrom sep width (room - l.length) rest).tail := by
  induction l generalizing room with
  | nil =>
    have hne : piecesFrom sep width room rest ≠ [] := piecesFrom_ne_nil rest
    obtain ⟨p, ps, hps⟩ := List.exists_cons_of_ne_nil hne
    simp [hps]
  | cons c l ih =>
    obtain ⟨hc, hclean⟩ := List.ne_and_not_mem_of_not_mem_cons clean
    cases room with
    | zero => exact absurd fits (by simp)
    | succ room =>
      have hfits : l.length ≤ room := Nat.le_of_succ_le_succ fits
      rw [List.cons_append, piecesFrom, if_neg hc.symm, ih hclean hfits]
      simp [extend]

/-- A line that fits, and its separator. -/
theorem pieces_line (clean : sep ∉ l) (fits : l.length ≤ width) :
    pieces sep width (l ++ sep :: rest) = l :: pieces sep width rest := by
  unfold pieces
  rw [piecesFrom_append clean fits, piecesFrom_sep]
  simp [pieces]

/-- The last line, where it fits. -/
theorem pieces_last (clean : sep ∉ l) (fits : l.length ≤ width) : pieces sep width l = [l] := by
  have h : piecesFrom sep width width (l ++ []) = _ := piecesFrom_append clean fits
  rw [List.append_nil] at h
  unfold pieces
  rw [h]
  cases width - l.length <;> simp [piecesFrom]

/-- A piece as long as the width, where the line goes on. -/
theorem pieces_full (clean : sep ∉ l) (full : l.length = width) (positive : 0 < width)
    (more : c ≠ sep) :
    pieces sep width (l ++ c :: rest) = l :: pieces sep width (c :: rest) := by
  unfold pieces
  rw [piecesFrom_append clean (Nat.le_of_eq full), full, Nat.sub_self, piecesFrom, if_neg more]
  obtain ⟨w, rfl⟩ := Nat.exists_eq_succ_of_ne_zero (Nat.ne_of_gt positive)
  simp [piecesFrom, more, extend]

/-- Where every line fits, the pieces are the lines. -/
theorem pieces_eq_splitOn {cs : List β} (fit : ∀ l ∈ cs.splitOn sep, l.length ≤ width) :
    pieces sep width cs = cs.splitOn sep := by
  induction hn : cs.length using Nat.strongRecOn generalizing cs with | _ n ih => ?_
  by_cases hmem : sep ∈ cs
  · obtain ⟨l, rest, rfl, hclean⟩ := List.eq_append_cons_of_mem hmem
    rw [List.splitOn_append_cons_self_of_not_mem hclean] at fit ⊢
    obtain ⟨hl, hrest⟩ := List.forall_mem_cons.mp fit
    have hless : rest.length < n := by
      rw [← hn, List.length_append, List.length_cons]
      omega
    rw [pieces_line hclean hl, ih _ hless hrest rfl]
  · rw [List.splitOn_eq_singleton hmem] at fit ⊢
    exact pieces_last hmem (fit cs List.mem_cons_self)

/-- What is reported of the pieces of a text, a blank one giving nothing, can be reported of the
first of them and then of the rest of the text. -/
theorem flatMap_pieces_append {γ : Type} {report : List β → List γ} (blank : report [] = [])
    (positive : 0 < width) (clean : sep ∉ l) (fits : l.length ≤ width)
    (cut : rest = [] ∨ rest.head? = some sep ∨ l.length = width) :
    (pieces sep width (l ++ rest)).flatMap report =
      report l ++ (pieces sep width rest).flatMap report := by
  have hnil : pieces sep width [] = [[]] := pieces_last List.not_mem_nil (Nat.zero_le _)
  cases rest with
  | nil =>
    rw [List.append_nil, pieces_last clean fits, hnil, List.flatMap_singleton,
      List.flatMap_singleton, blank, List.append_nil]
  | cons c rest =>
    by_cases hc : c = sep
    · have hblank : pieces sep width ([] ++ sep :: rest) = _ :=
        pieces_line List.not_mem_nil (Nat.zero_le width)
      rw [List.nil_append] at hblank
      rw [hc, pieces_line clean fits, hblank, List.flatMap_cons, List.flatMap_cons, blank,
        List.nil_append]
    · have hfull : l.length = width := by simpa [hc] using cut
      rw [pieces_full clean hfull positive hc, List.flatMap_cons]

end Pieces
