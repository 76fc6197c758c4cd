import Mathlib.Data.List.Nodup

/-! Lists whose elements carry keys of their own. -/
namespace SynQt.Lib
universe u v
variable {α : Type u} {κ : Type v} [DecidableEq κ] {f : α → κ}

/-- Taking the one element of a key out of a list leaves the others. -/
theorem perm_cons_filter {l : List α} {a : α} {k : κ} (hnd : (l.map f).Nodup)
    (ha : l.find? (fun b => f b == k) = some a) : l.Perm (a :: l.filter (fun b => f b != k)) := by
  induction l with
  | nil => cases ha
  | cons b l ih =>
    obtain ⟨hb, hnd'⟩ := List.nodup_cons.mp (List.map_cons ▸ hnd)
    by_cases hk : f b = k
    · obtain rfl : b = a := by simpa [hk] using ha
      have hrest : l.filter (fun c => f c != k) = l := by
        apply List.filter_eq_self.mpr
        intro c hc
        rw [bne_iff_ne, ← hk]
        exact fun heq => hb (heq ▸ List.mem_map_of_mem hc)
      simp [hk, hrest]
    · have hfound : l.find? (fun c => f c == k) = some a := by simpa [hk] using ha
      have hperm := (ih hnd' hfound).cons b
      simpa [hk] using hperm.trans (List.Perm.swap a b _)

theorem find?_key_of_mem {l : List α} {a : α} (hnd : (l.map f).Nodup) (ha : a ∈ l) :
    l.find? (fun b => f b == f a) = some a := by
  have hsome : (l.find? fun b => f b == f a).isSome := List.find?_isSome.mpr ⟨a, ha, beq_self_eq_true _⟩
  obtain ⟨b, hb⟩ := Option.isSome_iff_exists.mp hsome
  have hkey : f b = f a := by simpa using List.find?_some hb
  rw [hb, List.inj_on_of_nodup_map hnd (List.mem_of_find?_eq_some hb) ha hkey]

end SynQt.Lib
