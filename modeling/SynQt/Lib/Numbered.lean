import SynQt.Lib.Dict
import Mathlib.Data.List.Sort

/-! A list sorted by a key, numbered from its start, and what is kept under each key. -/
namespace SynQt.Lib
open List
open Dict (put lookup)
universe u v
variable {α β κ : Type u}

section Last
variable [DecidableEq κ] (key : α → κ)

def lastOf (l : List α) (k : κ) : Option α := (l.filter fun a => key a = k).getLast?

variable {key}

private theorem lastOf_eq_none {l : List α} {k : κ} : lastOf key l k = none ↔ ∀ a ∈ l, key a ≠ k := by
  rw [lastOf, List.getLast?_eq_none_iff, filter_eq_nil_iff]
  simp only [decide_eq_true_eq, ne_eq]

theorem lastOf_key {l : List α} {k : κ} {a : α} (h : lastOf key l k = some a) : a ∈ l ∧ key a = k := by
  have hin := mem_filter.mp (mem_of_getLast? h)
  exact ⟨hin.1, of_decide_eq_true hin.2⟩

private theorem lastOf_cons (a : α) (l : List α) (k : κ) :
    lastOf key (a :: l) k =
      match lastOf key l k with
      | some b => some b
      | none => if key a = k then some a else none := by
  rw [lastOf, lastOf, filter_cons]
  by_cases hk : key a = k
  · rw [if_pos (decide_eq_true hk), List.getLast?_cons, if_pos hk]
    cases (l.filter fun b => key b = k).getLast? <;> rfl
  · rw [if_neg (by simpa using hk), if_neg hk]
    cases (l.filter fun b => key b = k).getLast? <;> rfl

theorem lastOf_insert (left right : List α) {a : α} {k : κ} (h : key a ≠ k) :
    lastOf key (left ++ a :: right) k = lastOf key (left ++ right) k := by
  rw [lastOf, lastOf, filter_append, filter_cons_of_neg (by simpa using h), filter_append]

end Last

section Order
variable [LinearOrder κ] (key : α → κ)

/-- In the order of the keys; of one key, as they stood. -/
def inOrder (l : List α) : List α := l.insertionSort fun a b => key a ≤ key b

def numberOf (l : List α) (k : κ) : Nat := l.countP (fun a => key a ≤ k) - 1

variable {key}

instance keyTotal : Std.Total fun a b : α => key a ≤ key b := ⟨fun a b => le_total (key a) (key b)⟩

instance keyTrans : IsTrans α fun a b => key a ≤ key b := ⟨fun _ _ _ h h' => le_trans h h'⟩

private theorem pairwise_inOrder (l : List α) : (inOrder key l).Pairwise fun a b => key a ≤ key b :=
  pairwise_insertionSort _ l

private theorem perm_inOrder (l : List α) : (inOrder key l).Perm l := perm_insertionSort _ l

private theorem numberOf_inOrder (l : List α) (k : κ) : numberOf key (inOrder key l) k = numberOf key l k := by
  rw [numberOf, numberOf, (perm_inOrder l).countP_eq]

end Order

variable [LinearOrder κ] [DecidableEq κ] (key : α → κ)

def collect (make : Nat → α → Option β) (number : Nat) (kept : List (κ × β)) : List α → Option (List (κ × β))
  | [] => some kept
  | a :: rest =>
    match make number a with
    | none => none
    | some b => collect make (number + 1) (put kept (key a) b) rest

variable {key}

private theorem filter_inOrder (l : List α) (k : κ) :
    (inOrder key l).filter (fun a => key a = k) = l.filter fun a => key a = k := by
  have hsame : (l.filter fun a => key a = k).Pairwise fun a b => key a ≤ key b := by
    refine pairwise_of_forall_mem_list fun a ha b hb => ?_
    rw [of_decide_eq_true (mem_filter.mp ha).2, of_decide_eq_true (mem_filter.mp hb).2]
  have hsub := (sublist_insertionSort hsame filter_sublist).filter fun a => decide (key a = k)
  rw [filter_filter] at hsub
  simp only [Bool.and_self] at hsub
  exact (hsub.eq_of_length ((perm_inOrder l).filter _).length_eq.symm).symm

private theorem lastOf_inOrder (l : List α) (k : κ) : lastOf key (inOrder key l) k = lastOf key l k := by
  rw [lastOf, lastOf, filter_inOrder]

variable {make : Nat → α → Option β} {l : List α}

theorem lookup_collect (hsorted : l.Pairwise fun a b => key a ≤ key b)
    {number : Nat} {kept out : List (κ × β)} (h : collect key make number kept l = some out) (k : κ) :
    lookup out k =
      match lastOf key l k with
      | some a => make (number + numberOf key l k) a
      | none => lookup kept k := by
  induction l generalizing number kept with
  | nil =>
    obtain rfl := Option.some.inj h
    rfl
  | cons a rest ih =>
    obtain ⟨hfirst, hrest⟩ := pairwise_cons.mp hsorted
    rw [collect] at h
    cases hmake : make number a with
    | none =>
      rw [hmake] at h
      cases h
    | some b =>
      rw [hmake] at h
      rw [ih hrest h, lastOf_cons, numberOf, numberOf, countP_cons]
      cases hlast : lastOf key rest k with
      | some c =>
        obtain ⟨hin, hc⟩ := lastOf_key hlast
        have hle : key a ≤ k := hc ▸ hfirst c hin
        have hpos : 0 < rest.countP fun a => key a ≤ k :=
          countP_pos_iff.mpr ⟨c, hin, decide_eq_true (le_of_eq hc)⟩
        rw [if_pos (decide_eq_true hle)]
        dsimp only
        congr 1
        omega
      | none =>
        dsimp only
        rw [Dict.lookup_put]
        by_cases hk : key a = k
        · -- Behind the last of a key there are only greater keys.
          have hzero : (rest.countP fun a => key a ≤ k) = 0 := by
            refine countP_eq_zero.mpr fun c hin hle => ?_
            have hge : k ≤ key c := hk ▸ hfirst c hin
            exact lastOf_eq_none.mp hlast c hin (le_antisymm (of_decide_eq_true hle) hge)
          rw [if_pos hk.symm, if_pos hk, hzero, if_pos (decide_eq_true (le_of_eq hk))]
          exact hmake.symm
        · rw [if_neg (Ne.symm hk), if_neg hk]

omit [LinearOrder κ] in
/-- Whatever was kept or came is there in the end. -/
theorem lookup_collect_isSome {number : Nat} {kept out : List (κ × β)}
    (h : collect key make number kept l = some out) {k : κ} (hk : (lookup kept k).isSome = true ∨ ∃ a ∈ l, key a = k) :
    (lookup out k).isSome = true := by
  induction l generalizing number kept with
  | nil =>
    obtain rfl := Option.some.inj h
    obtain hkept | ⟨a, hin, -⟩ := hk
    · exact hkept
    · cases hin
  | cons a rest ih =>
    rw [collect] at h
    cases hmake : make number a with
    | none =>
      rw [hmake] at h
      cases h
    | some b =>
      rw [hmake] at h
      refine ih h ?_
      rw [Dict.lookup_put]
      by_cases hkey : k = key a
      · rw [if_pos hkey]
        exact .inl rfl
      · rw [if_neg hkey]
        refine hk.imp_right fun hin => ?_
        obtain ⟨c, hc, rfl⟩ := hin
        exact ⟨c, (mem_cons.mp hc).resolve_left fun hca => hkey (hca ▸ rfl), rfl⟩

section
variable {out : List (κ × β)} (h : collect key make 0 [] (inOrder key l) = some out)
include h

theorem lookup_collect_inOrder (k : κ) :
    lookup out k = (lastOf key l k).bind fun a => make (numberOf key l k) a := by
  rw [lookup_collect (pairwise_inOrder l) h, lastOf_inOrder, numberOf_inOrder, Nat.zero_add]
  cases lastOf key l k <;> rfl

theorem make_of_collect {k : κ} {a : α} (ha : lastOf key l k = some a) :
    ∃ b, make (numberOf key l k) a = some b := by
  obtain ⟨hin, hkey⟩ := lastOf_key ha
  have hsome := lookup_collect_isSome h (.inr ⟨a, (perm_inOrder l).mem_iff.mpr hin, hkey⟩)
  rw [lookup_collect_inOrder h, ha] at hsome
  exact Option.isSome_iff_exists.mp hsome

end

/-- Of two keys that are there the lesser has the lesser number. -/
theorem numberOf_lt {k k' : κ} (hlt : k < k') {a a' : α} (ha : lastOf key l k = some a)
    (ha' : lastOf key l k' = some a') : numberOf key l k < numberOf key l k' := by
  obtain ⟨hin, hkey⟩ := lastOf_key ha
  obtain ⟨hin', hkey'⟩ := lastOf_key ha'
  have hpos : 0 < l.countP fun a => key a ≤ k := countP_pos_iff.mpr ⟨a, hin, decide_eq_true (le_of_eq hkey)⟩
  have hmore : (l.countP fun a => key a ≤ k) < l.countP fun a => key a ≤ k' := by
    have hsplit := countP_eq_countP_filter_add l (fun a => key a ≤ k') fun a => key a ≤ k
    have hbelow : ((l.filter fun a => key a ≤ k).countP fun a => key a ≤ k') = l.countP fun a => key a ≤ k := by
      rw [countP_filter]
      refine countP_congr fun b _ => ?_
      simp only [Bool.and_eq_true, decide_eq_true_eq, and_iff_right_iff_imp]
      exact fun hle => le_trans hle (le_of_lt hlt)
    have habove : 0 < (l.filter fun a => !decide (key a ≤ k)).countP fun a => key a ≤ k' := by
      refine countP_pos_iff.mpr ⟨a', mem_filter.mpr ⟨hin', ?_⟩, decide_eq_true (le_of_eq hkey')⟩
      rw [hkey']
      simpa using hlt
    omega
  rw [numberOf, numberOf]
  omega

theorem numberOf_insert (left right : List α) {a b : α} {k : κ} (hb : lastOf key (left ++ right) k = some b) :
    numberOf key (left ++ a :: right) k = numberOf key (left ++ right) k + if key a ≤ k then 1 else 0 := by
  obtain ⟨hin, hkey⟩ := lastOf_key hb
  have hpos : 0 < (left ++ right).countP fun a => key a ≤ k :=
    countP_pos_iff.mpr ⟨b, hin, decide_eq_true (le_of_eq hkey)⟩
  rw [numberOf, numberOf, countP_append, countP_cons]
  rw [countP_append] at hpos ⊢
  simp only [decide_eq_true_eq]
  omega

end SynQt.Lib
