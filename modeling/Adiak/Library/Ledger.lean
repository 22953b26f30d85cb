import Mathlib.Data.List.Dedup
import Mathlib.Data.List.Induction

/-!
# Ledgers

A ledger keeps one entry per key: posting under a new key puts the entry in front, posting under a
known key replaces the entry where it stands.

1. The keys of a ledger are the keys of its history, newest first, with only the first posting of
   each key kept (`keys_replay`).
2. Looking a key up gives the newest posting under it (`lookup_replay`), so a ledger is the set of
   the newest postings (`mem_replay_iff`), and a history may start from a ledger
   (`newest_replay_append`).
-/

namespace Ledger

variable {κ α : Type} [DecidableEq κ]

/-- The keys of a ledger. -/
def keys (l : List (κ × α)) : List κ := l.map Prod.fst

/-- Posting an entry. -/
def post (l : List (κ × α)) (e : κ × α) : List (κ × α) :=
  if e.1 ∈ keys l then l.map fun e' => if e'.1 = e.1 then e else e' else e :: l

/-- The ledger of a history, oldest posting first. -/
def replay (history : List (κ × α)) : List (κ × α) := history.foldl post []

/-- The entry under a key. -/
def lookup (l : List (κ × α)) (k : κ) : Option α := l.lookup k

/-- The newest posting under a key. -/
def newest (history : List (κ × α)) (k : κ) : Option α := lookup history.reverse k

theorem replay_append_singleton (history : List (κ × α)) (e : κ × α) :
    replay (history ++ [e]) = post (replay history) e := by
  unfold replay
  rw [List.foldl_append]
  rfl

theorem lookup_cons (e : κ × α) (l : List (κ × α)) (k : κ) :
    lookup (e :: l) k = if k = e.1 then some e.2 else lookup l k := by
  unfold lookup
  rw [List.lookup_cons]
  by_cases h : k = e.1
  · rw [if_pos h, beq_iff_eq.mpr h]
  · rw [if_neg h, beq_eq_false_iff_ne.mpr h]

theorem newest_append_singleton (history : List (κ × α)) (e : κ × α) (k : κ) :
    newest (history ++ [e]) k = if k = e.1 then some e.2 else newest history k := by
  unfold newest
  rw [List.reverse_append, List.reverse_singleton, List.singleton_append, lookup_cons]

/-! ## Keys -/

theorem keys_post (l : List (κ × α)) (e : κ × α) :
    keys (post l e) = if e.1 ∈ keys l then keys l else e.1 :: keys l := by
  unfold post
  split_ifs with h
  · unfold keys
    rw [List.map_map]
    refine List.map_congr_left fun e' _ => ?_
    show (if e'.1 = e.1 then e else e').1 = e'.1
    split_ifs with he
    · exact he.symm
    · rfl
  · rfl

/-- Posting adds the keys that are posted. -/
theorem mem_keys_foldl_post {l es : List (κ × α)} {k : κ} :
    k ∈ keys (es.foldl post l) ↔ k ∈ keys l ∨ k ∈ keys es := by
  induction es generalizing l with
  | nil => exact ⟨.inl, fun h => h.resolve_right List.not_mem_nil⟩
  | cons e es ih =>
    have hcons : k ∈ keys (e :: es) ↔ k = e.1 ∨ k ∈ keys es := List.mem_cons
    rw [List.foldl_cons, ih, keys_post, hcons]
    split_ifs with h
    · constructor
      · rintro (hl | hes)
        · exact .inl hl
        · exact .inr (.inr hes)
      · rintro (hl | rfl | hes)
        · exact .inl hl
        · exact .inl h
        · exact .inr hes
    · rw [List.mem_cons]
      tauto

/-- The keys, newest first, each at its first posting. -/
theorem keys_replay (history : List (κ × α)) :
    keys (replay history) = (keys history).reverse.dedup := by
  induction history using List.reverseRecOn with
  | nil => rfl
  | append_singleton history e ih =>
    have hkeys : (keys (history ++ [e])).reverse = e.1 :: (keys history).reverse := by simp [keys]
    rw [replay_append_singleton, keys_post, ih, hkeys]
    by_cases h : e.1 ∈ (keys history).reverse
    · rw [if_pos (List.mem_dedup.mpr h), List.dedup_cons_of_mem h]
    · rw [if_neg fun hd => h (List.mem_dedup.mp hd), List.dedup_cons_of_notMem h]

theorem nodup_keys_replay (history : List (κ × α)) : (keys (replay history)).Nodup := by
  rw [keys_replay]
  exact List.nodup_dedup _

/-! ## Lookup -/

theorem lookup_map_replace (l : List (κ × α)) (e : κ × α) (k : κ) :
    lookup (l.map fun e' => if e'.1 = e.1 then e else e') k =
      if k = e.1 ∧ k ∈ keys l then some e.2 else lookup l k := by
  induction l with
  | nil => simp [keys, lookup]
  | cons e' l ih =>
    have hkeys : k ∈ keys (e' :: l) ↔ k = e'.1 ∨ k ∈ keys l := List.mem_cons
    rw [List.map_cons, lookup_cons, lookup_cons, ih]
    simp only [hkeys]
    by_cases he : e'.1 = e.1
    · by_cases hk : k = e.1
      · simp [hk, he]
      · simp [hk, he]
    · by_cases hk : k = e'.1
      · simp [he, hk]
      · simp [he, hk]

theorem lookup_post (l : List (κ × α)) (e : κ × α) (k : κ) :
    lookup (post l e) k = if k = e.1 then some e.2 else lookup l k := by
  unfold post
  split_ifs with hmem hk hk
  · rw [lookup_map_replace, if_pos ⟨hk, hk ▸ hmem⟩]
  · rw [lookup_map_replace, if_neg fun h => hk h.1]
  · rw [lookup_cons, if_pos hk]
  · rw [lookup_cons, if_neg hk]

/-- Looking a key up gives the newest posting under it. -/
theorem lookup_replay (history : List (κ × α)) (k : κ) :
    lookup (replay history) k = newest history k := by
  induction history using List.reverseRecOn with
  | nil => rfl
  | append_singleton history e ih =>
    rw [replay_append_singleton, lookup_post, newest_append_singleton, ih]

/-! ## Ledgers as sets -/

/-- With distinct keys, looking up is membership. -/
theorem lookup_eq_some_iff {l : List (κ × α)} (hnodup : (keys l).Nodup) {k : κ} {x : α} :
    lookup l k = some x ↔ (k, x) ∈ l := by
  induction l with
  | nil => simp [lookup]
  | cons e l ih =>
    obtain ⟨hnew, hrest⟩ := List.nodup_cons.mp hnodup
    rw [lookup_cons, List.mem_cons]
    split_ifs with hk
    · have hmem : (k, x) ∉ l := fun h => hnew (hk ▸ List.mem_map_of_mem h)
      constructor
      · intro h
        obtain rfl := Option.some.inj h
        exact .inl (Prod.ext hk rfl)
      · rintro (h | h)
        · rw [← h]
        · exact absurd h hmem
    · rw [ih hrest]
      refine ⟨.inr, ?_⟩
      rintro (h | h)
      · exact absurd (congrArg Prod.fst h) hk
      · exact h

/-- The entries of the ledger are the newest values. -/
theorem mem_replay_iff {history : List (κ × α)} {k : κ} {x : α} :
    (k, x) ∈ replay history ↔ newest history k = some x := by
  rw [← lookup_eq_some_iff (nodup_keys_replay history), lookup_replay]

theorem newest_append (history later : List (κ × α)) (k : κ) :
    newest (history ++ later) k = (newest later k).or (newest history k) := by
  induction later using List.reverseRecOn with
  | nil => rw [List.append_nil]; rfl
  | append_singleton later e ih =>
    rw [← List.append_assoc, newest_append_singleton, newest_append_singleton, ih]
    split_ifs <;> rfl

/-- A history may start from the ledger of what went before. -/
theorem newest_replay_append (history later : List (κ × α)) (k : κ) :
    newest (replay history ++ later) k = newest (history ++ later) k := by
  have hreverse : (keys (replay history).reverse).Nodup := by
    unfold keys
    rw [List.map_reverse, List.nodup_reverse]
    exact nodup_keys_replay history
  have hstart : newest (replay history) k = newest history k := by
    ext x
    rw [newest, lookup_eq_some_iff hreverse, List.mem_reverse, mem_replay_iff]
  rw [newest_append, newest_append, hstart]

/-- Changing the values commutes with keeping the ledger. -/
theorem map_replay {β : Type} (f : α → β) (history : List (κ × α)) :
    (replay history).map (Prod.map id f) = replay (history.map (Prod.map id f)) := by
  induction history using List.reverseRecOn with
  | nil => rfl
  | append_singleton history e ih =>
    have hkeys : ∀ l : List (κ × α), keys (l.map (Prod.map id f)) = keys l := by
      intro l
      unfold keys
      rw [List.map_map]
      rfl
    rw [List.map_append, List.map_singleton, replay_append_singleton, replay_append_singleton, ← ih]
    have hfst : (Prod.map id f e).1 = e.1 := rfl
    unfold post
    rw [hkeys, hfst]
    split_ifs
    · rw [List.map_map, List.map_map]
      refine List.map_congr_left fun e' _ => ?_
      simp only [Function.comp_apply]
      by_cases h : e'.1 = e.1 <;> simp [h]
    · rfl

end Ledger
