import Flexus.Lib.OrderedIndex

/-!
# Changing keys while walking an ordered index

When the first of the values with one key gets a greater key, it stays where it is or moves
behind, so a walk along the run that knows where to go on before it changes a value meets each
value of the run once.
-/

namespace OrderedIndex

variable {α κ : Type*} [LinearOrder κ] {key : α → κ} {l pre post run : List α} {e x : α} {k : κ}
  {p : α → Bool} {f : α → α}

/-- An ascending list falls into the values below a key, those at it and those above it. -/
theorem exists_run (hl : Ascending key l) (k : κ) :
    ∃ pre run post, l = pre ++ run ++ post ∧ (∀ x ∈ pre, key x < k) ∧ (∀ x ∈ run, key x = k) ∧
      ∀ x ∈ post, k < key x := by
  induction l with
  | nil => exact ⟨[], [], [], rfl, by simp, by simp, by simp⟩
  | cons y l ih =>
    obtain ⟨hy, htail⟩ := List.pairwise_cons.mp hl
    obtain ⟨pre, run, post, rfl, hpre, hrun, hpost⟩ := ih htail
    rcases lt_trichotomy (key y) k with hlt | heq | hgt
    · exact ⟨y :: pre, run, post, rfl, List.forall_mem_cons.mpr ⟨hlt, hpre⟩, hrun, hpost⟩
    · have hnil : pre = [] := by
        apply List.eq_nil_iff_forall_not_mem.mpr
        intro z hz
        have hle := hy z (List.mem_append_left _ (List.mem_append_left _ hz))
        exact absurd (hpre z hz) (not_lt.mpr (heq ▸ hle))
      subst hnil
      exact ⟨[], y :: run, post, rfl, by simp, List.forall_mem_cons.mpr ⟨heq, hrun⟩, hpost⟩
    · have hempty : pre ++ run = [] := by
        apply List.eq_nil_iff_forall_not_mem.mpr
        intro z hz
        have hle := hy z (List.mem_append_left _ hz)
        rcases List.mem_append.mp hz with hz | hz
        · exact absurd (hgt.trans_le hle) (not_lt.mpr (hpre z hz).le)
        · exact absurd (hgt.trans_le hle) (not_lt.mpr (hrun z hz).le)
      obtain ⟨rfl, rfl⟩ := List.append_eq_nil_iff.mp hempty
      exact ⟨[], [], y :: post, rfl, by simp, by simp, List.forall_mem_cons.mpr ⟨hgt, hpost⟩⟩

theorem link_append (hpre : ∀ x ∈ pre, key x ≤ key e) :
    link key e (pre ++ post) = pre ++ link key e post := by
  induction pre with
  | nil => rfl
  | cons y pre ih =>
    obtain ⟨hy, hpre⟩ := List.forall_mem_cons.mp hpre
    have hcons : link key e (y :: (pre ++ post)) = y :: link key e (pre ++ post) := by
      simp [link, List.orderedInsert, not_lt.mpr hy]
    rw [List.cons_append, hcons, ih hpre, List.cons_append]

theorem modify_append (hpre : ∀ z ∈ pre, p z = false) (he : p e = true) :
    modify key p f (pre ++ e :: post) =
      if inPlace key pre.getLast? (f e) post.head? then pre ++ f e :: post
      else link key (f e) (pre ++ post) := by
  have hnot : ∀ z ∈ pre, (!p z) = true := fun z hz => by simp [hpre z hz]
  have htake : (pre ++ e :: post).takeWhile (fun z => !p z) = pre := by
    rw [List.takeWhile_append_of_pos hnot]
    simp [he]
  have hdrop : (pre ++ e :: post).dropWhile (fun z => !p z) = e :: post := by
    rw [List.dropWhile_append_of_pos hnot]
    simp [he]
  simp only [modify, htake, hdrop]

/-- The first value of a run gets a greater key, which the value behind the run does not
    exceed. What is left of the run still ends there. -/
theorem modify_run (hl : Ascending key (pre ++ (e :: run ++ x :: post)))
    (hp : ∀ z ∈ pre, p z = false) (he : p e = true) (hkey : ∀ z ∈ e :: run, key z = k)
    (hgreater : k < key (f e)) (hx : key x ≤ key (f e)) :
    ∃ pre' post', modify key p f (pre ++ (e :: run ++ x :: post)) = pre' ++ (run ++ x :: post') := by
  obtain ⟨hk, hrun⟩ := List.forall_mem_cons.mp hkey
  rw [List.cons_append, modify_append hp he]
  split
  · next hplace =>
    simp only [inPlace, Bool.and_eq_true, Option.all_eq_true, decide_eq_true_eq] at hplace
    cases run with
    | nil => exact ⟨pre ++ [f e], post, by simp⟩
    | cons y run =>
      have hle := hplace.2 y (by simp)
      exact absurd hgreater (not_lt.mpr (hrun y (List.mem_cons_self ..) ▸ hle))
  · have hbefore : ∀ z ∈ pre ++ (run ++ [x]), key z ≤ key (f e) := by
      intro z hz
      simp only [List.mem_append, List.mem_singleton] at hz
      rcases hz with hz | hz | rfl
      · have hle := (List.pairwise_append.mp hl).2.2 z hz e (List.mem_cons_self ..)
        exact (hle.trans_eq hk).trans hgreater.le
      · exact (hrun z hz).le.trans hgreater.le
      · exact hx
    refine ⟨pre, link key (f e) post, ?_⟩
    have hsplit : pre ++ (run ++ x :: post) = pre ++ (run ++ [x]) ++ post := by simp
    rw [hsplit, link_append hbefore]
    simp

end OrderedIndex
