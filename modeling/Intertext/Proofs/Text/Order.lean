import Mathlib.Data.List.Basic
import Intertext.Text.Order
/-!
Lists in order.

Sorting keeps the order of what is equal to the sort, so sorting commutes with leaving something
out (`filter_mergeSort`), and a list in order is known if it is known what it holds of each key
(`eq_of_keys`). The order of names is an order that lists can be sorted by. The distinct elements of
a list are in the order in which they first occur (`pairwise_idxOf_eraseDups`), and what occurs
again does not matter to them. The texts in order, each once, depend on nothing but which texts
there are (`sortedDistinct_congr`).
-/

namespace Intertext.Text

/-! ## 1. Sorting

Merge sort is stable. What that means is told by filters: of the elements with a property, sorting
keeps the order if the property picks elements that are all equal to the sort. -/

/-- A list whose elements are all equal to the sort is in order. -/
theorem mergeSort_of_ties {α : Type} {le : α → α → Bool} {list : List α}
    (ties : ∀ a ∈ list, ∀ b ∈ list, le a b = true) : list.mergeSort le = list :=
  List.mergeSort_of_pairwise (List.pairwise_iff_getElem.mpr fun _ _ first second _ =>
    ties _ (List.getElem_mem first) _ (List.getElem_mem second))

section

variable {α : Type} {le : α → α → Bool} (trans : ∀ a b c, le a b → le b c → le a c)
  (total : ∀ a b, le a b || le b a)

include trans total

/-- Where a new element goes in a sorted list is told by the elements it does not precede. -/
theorem mergeSort_cons_eq (a : α) (list : List α) :
    (a :: list).mergeSort le =
      (list.mergeSort le).filter (!le a ·) ++ a :: (list.mergeSort le).filter (le a ·) := by
  obtain ⟨before, after, whole, rest, isBefore⟩ := List.mergeSort_cons trans total a list
  have sorted := List.pairwise_mergeSort trans total (a :: list)
  rw [whole] at sorted
  have isAfter : ∀ b ∈ after, le a b = true :=
    (List.pairwise_cons.mp (List.pairwise_append.mp sorted).2.1).1
  have none : before.filter (le a ·) = [] :=
    List.filter_eq_nil_iff.mpr fun b member => by simpa using isBefore b member
  have none' : after.filter (!le a ·) = [] :=
    List.filter_eq_nil_iff.mpr fun b member => by simp [isAfter b member]
  rw [whole, rest, List.filter_append, List.filter_append, none, none', List.append_nil,
    List.nil_append, List.filter_eq_self.mpr isBefore, List.filter_eq_self.mpr isAfter]

/-- What is left of a sorted list is what is left of the list, sorted. -/
theorem filter_mergeSort (p : α → Bool) (list : List α) :
    (list.mergeSort le).filter p = (list.filter p).mergeSort le := by
  induction list with
  | nil => simp
  | cons a rest ih =>
    by_cases kept : p a = true
    · have swap (q : α → Bool) : ((rest.mergeSort le).filter q).filter p =
          ((rest.filter p).mergeSort le).filter q := by
        rw [← ih, List.filter_filter, List.filter_filter]
        simp only [Bool.and_comm]
      rw [mergeSort_cons_eq trans total, List.filter_append, List.filter_cons_of_pos kept, swap,
        swap, List.filter_cons_of_pos kept, mergeSort_cons_eq trans total]
    · obtain ⟨before, after, whole, others, -⟩ := List.mergeSort_cons trans total a rest
      rw [others, List.filter_append] at ih
      rw [whole, List.filter_append, List.filter_cons_of_neg kept, List.filter_cons_of_neg kept, ih]

/-- What is equal to the sort is left in a sorted list as it was. -/
theorem filter_mergeSort_of_ties {p : α → Bool} {list : List α}
    (ties : ∀ a ∈ list, ∀ b ∈ list, p a = true → p b = true → le a b = true) :
    (list.mergeSort le).filter p = list.filter p := by
  rw [filter_mergeSort trans total]
  refine mergeSort_of_ties fun a isA b isB => ?_
  obtain ⟨isThere, holds⟩ := List.mem_filter.mp isA
  obtain ⟨isThere', holds'⟩ := List.mem_filter.mp isB
  exact ties a isThere b isThere' holds holds'

end

section

variable {α : Type} (key : α → Nat)

theorem keyLe_trans (a b c : α) (first : decide (key a ≤ key b) = true)
    (second : decide (key b ≤ key c) = true) : decide (key a ≤ key c) = true :=
  decide_eq_true (Nat.le_trans (of_decide_eq_true first) (of_decide_eq_true second))

theorem keyLe_total (a b : α) : (decide (key a ≤ key b) || decide (key b ≤ key a)) = true := by
  simpa using Nat.le_total (key a) (key b)

/-- What is sorted by numbers is in the order of the numbers. -/
theorem pairwise_mergeSort_key (list : List α) :
    (list.mergeSort fun a b => key a ≤ key b).Pairwise fun a b => key a ≤ key b :=
  (List.pairwise_mergeSort (keyLe_trans key) (keyLe_total key) list).imp of_decide_eq_true

variable {key}

/-- What has one number is left by sorting by numbers as it was. -/
theorem filter_mergeSort_key {p : α → Bool} {list : List α}
    (ties : ∀ a ∈ list, ∀ b ∈ list, p a = true → p b = true → key a = key b) :
    (list.mergeSort fun a b => key a ≤ key b).filter p = list.filter p :=
  filter_mergeSort_of_ties (keyLe_trans key) (keyLe_total key) fun a isA b isB holds holds' =>
    decide_eq_true (Nat.le_of_eq (ties a isA b isB holds holds'))

end

section

variable {α κ : Type} [DecidableEq κ] {key : α → κ} {le : κ → κ → Prop} (refl : ∀ k, le k k)
  (antisymm : ∀ k l, le k l → le l k → k = l)

include refl antisymm

/-- Lists that are in the order of some key are equal if they hold the same of each key. -/
theorem eq_of_keys : ∀ {rows others : List α}, rows.Pairwise (fun a b => le (key a) (key b)) →
    others.Pairwise (fun a b => le (key a) (key b)) →
    (∀ k, rows.filter (key · = k) = others.filter (key · = k)) → rows = others
  | [], [], _, _, _ => rfl
  | [], b :: others, _, _, same => by
    have none := same (key b)
    rw [List.filter_cons_of_pos (by simp)] at none
    cases none
  | a :: rows, [], _, _, same => by
    have none := same (key a)
    rw [List.filter_cons_of_pos (by simp)] at none
    cases none
  | a :: rows, b :: others, inOrder, othersInOrder, same => by
    have before {a b : α} {rows others : List α}
        (inOrder : (a :: rows).Pairwise (fun a b => le (key a) (key b)))
        (same : (a :: rows).filter (key · = key b) = (b :: others).filter (key · = key b)) :
        le (key a) (key b) := by
      have member : b ∈ (a :: rows).filter (key · = key b) := by
        rw [same, List.filter_cons_of_pos (by simp)]
        exact List.mem_cons_self
      rcases List.mem_cons.mp (List.mem_filter.mp member).1 with rfl | isLater
      · exact refl _
      · exact (List.pairwise_cons.mp inOrder).1 b isLater
    -- Each of the two first keys is somewhere in the other list, so neither is less than the other.
    have sameKey : key a = key b :=
      antisymm _ _ (before inOrder (same _)) (before othersInOrder (same _).symm)
    have first := same (key a)
    rw [List.filter_cons_of_pos (by simp), List.filter_cons_of_pos (by simp [sameKey]),
      List.cons.injEq] at first
    obtain ⟨rfl, sameRest⟩ := first
    congr 1
    refine eq_of_keys (List.pairwise_cons.mp inOrder).2 (List.pairwise_cons.mp othersInOrder).2
      fun k => ?_
    by_cases own : key a = k
    · rw [← own, sameRest]
    · have rest := same k
      rwa [List.filter_cons_of_neg (by simpa using own),
        List.filter_cons_of_neg (by simpa using own)] at rest

end

/-! ## 2. The order of names

Names are compared as texts, and a text that begins another comes before it. Where two texts part
decides, whatever follows. -/

theorem le_trans (a b c : String) (first : le a b) (second : le b c) : le a c := by
  simp only [le, decide_eq_true_eq] at first second ⊢
  exact String.le_trans first second

theorem le_total (a b : String) : le a b || le b a := by
  simpa [le] using String.le_total a b

/-- Texts are in order as their characters are, by the library's order of lists. -/
theorem ofList_le_iff {first second : List Char} :
    String.ofList first ≤ String.ofList second ↔ ¬ List.lt second first := by
  show ¬ List.lt (String.ofList second).toList (String.ofList first).toList ↔ _
  rw [String.toList_ofList, String.toList_ofList]

/-- The first character decides, and where it is the same the rest does. -/
theorem ofList_cons_le_iff {c d : Char} {first second : List Char} :
    String.ofList (c :: first) ≤ String.ofList (d :: second) ↔
      c < d ∨ c = d ∧ String.ofList first ≤ String.ofList second := by
  rw [ofList_le_iff, ofList_le_iff]
  exact List.cons_le_cons_iff

/-- A text comes before those that it begins. -/
theorem ofList_le_of_isPrefix {first second : List Char} (begins : first <+: second) :
    String.ofList first ≤ String.ofList second :=
  ofList_le_iff.mpr begins.le

/-- What two texts begin with alike does not matter to their order. -/
theorem ofList_append_left_le_iff {front first second : List Char} :
    String.ofList (front ++ first) ≤ String.ofList (front ++ second) ↔
      String.ofList first ≤ String.ofList second := by
  induction front with
  | nil => rfl
  | cons c front ih =>
    rw [List.cons_append, List.cons_append, ofList_cons_le_iff, ih]
    simp

/-- Where two texts part before either of them ends, what follows does not matter to their order. -/
theorem ofList_append_le_iff {first second rest rest' : List Char} (apart : ¬ first <+: second)
    (apart' : ¬ second <+: first) :
    String.ofList (first ++ rest) ≤ String.ofList (second ++ rest') ↔
      String.ofList first ≤ String.ofList second := by
  induction first generalizing second with
  | nil => exact absurd List.nil_prefix apart
  | cons c first ih =>
    cases second with
    | nil => exact absurd List.nil_prefix apart'
    | cons d second =>
      rw [List.cons_append, List.cons_append, ofList_cons_le_iff, ofList_cons_le_iff]
      by_cases same : c = d
      · subst same
        rw [List.cons_prefix_cons, and_iff_right rfl] at apart apart'
        rw [ih apart apart']
      · simp only [same, false_and, or_false]

/-- Pairs are compared by their first components, and where these are the same by their second
ones. -/
theorem lePair_trans (a b c : String × String) (first : lePair a b) (second : lePair b c) :
    lePair a c := by
  unfold lePair at first second ⊢
  by_cases start : a.1 = b.1
  · by_cases stop : b.1 = c.1
    · rw [if_pos start] at first
      rw [if_pos stop] at second
      rw [if_pos (start.trans stop)]
      exact le_trans _ _ _ first second
    · rw [if_neg stop] at second
      rwa [start, if_neg stop]
  · rw [if_neg start] at first
    by_cases stop : b.1 = c.1
    · rwa [← stop, if_neg start]
    · rw [if_neg stop] at second
      -- Between equal ends there is nothing else.
      have apart : a.1 ≠ c.1 := by
        intro same
        rw [← same] at second
        have first : a.1 ≤ b.1 := by simpa [le] using first
        have second : b.1 ≤ a.1 := by simpa [le] using second
        exact start (String.le_antisymm first second)
      rw [if_neg apart]
      exact le_trans _ _ _ first second

theorem lePair_total (a b : String × String) : lePair a b || lePair b a := by
  unfold lePair
  by_cases same : a.1 = b.1
  · rw [if_pos same, if_pos same.symm]
    exact le_total a.2 b.2
  · rw [if_neg same, if_neg (Ne.symm same)]
    exact le_total a.1 b.1

/-- What is sorted by pairs of texts is in the order of the first texts. -/
theorem pairwise_mergeSort_lePair {α : Type} (first second : α → String) (list : List α) :
    (list.mergeSort fun a b => lePair (first a, second a) (first b, second b)).Pairwise
      fun a b => le (first a) (first b) = true := by
  let key (item : α) := (first item, second item)
  have sorted := List.pairwise_mergeSort (fun a b c => lePair_trans (key a) (key b) (key c))
    (fun a b => lePair_total (key a) (key b)) list
  refine sorted.imp fun {a b} inOrder => ?_
  by_cases same : first a = first b
  · exact decide_eq_true (Std.le_of_eq same)
  · exact (if_neg same).symm.trans inOrder

/-! ## 3. Distinct elements

Taking out what occurs again keeps first occurrences, in their order. So it commutes with filters,
and doing it twice does no more. -/

section

variable {α : Type} [BEq α] [LawfulBEq α]

/-- What is left of the distinct elements of a list are the distinct elements of what is left. -/
theorem filter_eraseDups (p : α → Bool) :
    ∀ list : List α, list.eraseDups.filter p = (list.filter p).eraseDups
  | [] => rfl
  | first :: rest => by
    have below := filter_eraseDups p (rest.filter fun item => !item == first)
    rw [List.filter_filter] at below
    rw [List.eraseDups_cons]
    by_cases kept : p first = true
    · rw [List.filter_cons_of_pos kept, List.filter_cons_of_pos kept, List.eraseDups_cons, below,
        List.filter_filter]
      simp only [Bool.and_comm]
    · have others : ∀ item ∈ rest, (p item && !item == first) = p item := by
        intro item _
        by_cases same : item = first
        · simp [same, kept]
        · simp [same]
      rw [List.filter_cons_of_neg kept, List.filter_cons_of_neg kept, below,
        List.filter_congr others]
termination_by list => list.length
decreasing_by exact Nat.lt_succ_of_le (List.length_filter_le _ _)

/-- The first occurrences stand in the list, in their order. -/
theorem eraseDups_sublist : ∀ list : List α, list.eraseDups.Sublist list
  | [] => .refl _
  | first :: rest => by
    rw [List.eraseDups_cons, ← filter_eraseDups]
    exact (List.filter_sublist.trans (eraseDups_sublist rest)).cons_cons first

/-- The distinct elements of a list are in the order in which they first occur in it. -/
theorem pairwise_idxOf_eraseDups :
    ∀ list : List α, list.eraseDups.Pairwise (list.idxOf · < list.idxOf ·)
  | [] => .nil
  | first :: rest => by
    have later {item : α} (member : item ∈ rest.eraseDups.filter fun item => !item == first) :
        (first :: rest).idxOf item = rest.idxOf item + 1 := by
      have differs : item ≠ first := by simpa using (List.mem_filter.mp member).2
      exact List.idxOf_cons_ne rest differs.symm
    rw [List.eraseDups_cons, ← filter_eraseDups, List.pairwise_cons]
    refine ⟨fun item member => ?_, ?_⟩
    · rw [List.idxOf_cons_self, later member]
      exact Nat.succ_pos _
    · refine ((pairwise_idxOf_eraseDups rest).sublist List.filter_sublist).imp_of_mem ?_
      intro a b isA isB before
      rw [later isA, later isB]
      exact Nat.succ_lt_succ before

theorem nodup_eraseDups (list : List α) : list.eraseDups.Nodup :=
  (pairwise_idxOf_eraseDups list).imp fun before same => absurd (same ▸ before) (Nat.lt_irrefl _)

/-- Nothing occurs again among first occurrences. -/
theorem eraseDups_eraseDups : ∀ list : List α, list.eraseDups.eraseDups = list.eraseDups
  | [] => rfl
  | first :: rest => by
    rw [List.eraseDups_cons, ← filter_eraseDups, List.eraseDups_cons, List.filter_filter]
    simp only [Bool.and_self]
    rw [← filter_eraseDups, eraseDups_eraseDups rest]

/-- An element that occurs again makes no difference to the distinct elements of a list. -/
theorem eraseDups_append_cons_of_mem {before : List α} {item : α} (earlier : item ∈ before)
    (after : List α) : (before ++ item :: after).eraseDups = (before ++ after).eraseDups := by
  have again : before.contains item = true := List.contains_iff_mem.mpr earlier
  rw [List.eraseDups_append, List.eraseDups_append, List.cons_removeAll, again]
  rfl

end

/-! ## 4. Texts in order, each once

Which texts there are is all that such a list tells, so that two of them are equal if they have the
same members. -/

/-- A text is listed if it was there. -/
theorem mem_sortedDistinct {text : String} {texts : List String} :
    text ∈ sortedDistinct texts ↔ text ∈ texts := by
  rw [sortedDistinct, List.mem_eraseDups, List.mem_mergeSort]

theorem nodup_sortedDistinct (texts : List String) : (sortedDistinct texts).Nodup :=
  nodup_eraseDups _

theorem pairwise_sortedDistinct (texts : List String) :
    (sortedDistinct texts).Pairwise (le · · = true) :=
  (List.pairwise_mergeSort le_trans le_total texts).sublist (eraseDups_sublist _)

/-- The texts ascend, each being listed once. -/
theorem pairwise_lt_sortedDistinct (texts : List String) :
    (sortedDistinct texts).Pairwise (· < ·) := by
  refine ((pairwise_sortedDistinct texts).and (nodup_sortedDistinct texts)).imp ?_
  rintro a b ⟨before, differs⟩
  refine String.not_le.mp fun after => differs ?_
  exact String.le_antisymm (of_decide_eq_true before) after

/-- Texts in order, each once, are told by which they are. -/
theorem sortedDistinct_eq {texts others : List String} (ascending : others.Pairwise (· < ·))
    (same : ∀ text, text ∈ texts ↔ text ∈ others) : sortedDistinct texts = others := by
  have distinct : others.Nodup := ascending.imp fun less equal => by
    rw [equal] at less
    exact String.lt_irrefl _ less
  have perm : (sortedDistinct texts).Perm others := by
    rw [List.perm_ext_iff_of_nodup (nodup_sortedDistinct _) distinct]
    intro text
    rw [mem_sortedDistinct, same]
  refine perm.eq_of_pairwise (fun a b _ _ before after => ?_) (pairwise_lt_sortedDistinct texts)
    ascending
  exact absurd after (String.lt_asymm before)

/-- Lists with the same members give the same texts in order. -/
theorem sortedDistinct_congr {texts others : List String}
    (same : ∀ text, text ∈ texts ↔ text ∈ others) :
    sortedDistinct texts = sortedDistinct others :=
  sortedDistinct_eq (pairwise_lt_sortedDistinct others) fun text => by
    rw [mem_sortedDistinct, same]

end Intertext.Text
