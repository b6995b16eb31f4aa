import FormulaEngine.Failure
import Mathlib.Data.List.Basic

/-! The window of tokens around an error. It is written in one pass over the tokens between two
bounds, which are computed from the index in machine words that stop at the ends of their range.
A list of tokens is never so long that this would show: for every word the bounds cut out the
tokens whose indices are at most the radius away, and nothing else of the list is looked at. -/

namespace FormulaEngine

section Bounds

/-- The difference of two words, or zero if the second one is larger. -/
def saturatingSub (a b : UInt64) : UInt64 := if a < b then 0 else a - b

/-- The sum of two words, or the largest word if it is past that. -/
def saturatingAdd (a b : UInt64) : UInt64 := if a + b < a then .ofNat (UInt64.size - 1) else a + b

theorem toNat_saturatingSub (a b : UInt64) : (saturatingSub a b).toNat = a.toNat - b.toNat := by
  unfold saturatingSub
  split
  next hlt =>
    rw [Nat.sub_eq_zero_of_le (Nat.le_of_lt (UInt64.lt_iff_toNat_lt.mp hlt))]
    rfl
  next hge => exact UInt64.toNat_sub_of_le _ _ (UInt64.not_lt.mp hge)

theorem toNat_saturatingAdd (a b : UInt64) :
    (saturatingAdd a b).toNat = min (a.toNat + b.toNat) (UInt64.size - 1) := by
  have ha := a.toNat_lt
  have hb := b.toNat_lt
  simp only [saturatingAdd, UInt64.lt_iff_toNat_lt, UInt64.toNat_add, UInt64.size]
  split
  next hwraps =>
    have hlargest : (UInt64.ofNat (18446744073709551616 - 1)).toNat = 18446744073709551615 := rfl
    omega
  next hfits =>
    rw [UInt64.toNat_add]
    omega

theorem toNat_min (a b : UInt64) : (min a b).toNat = min a.toNat b.toNat := by
  change (if a ≤ b then a else b).toNat = _
  split
  next hle => exact (Nat.min_eq_left (UInt64.le_iff_toNat_le.mp hle)).symm
  next hle =>
    rw [UInt64.le_iff_toNat_le] at hle
    exact (Nat.min_eq_right (Nat.le_of_not_le hle)).symm

end Bounds

/-- A token as it stands in the window of an index. -/
def markedAt (index : Nat) (entry : String × Nat) : String :=
  if entry.2 = index then ">>" ++ entry.1 ++ "<<" else entry.1

/-- The tokens that are at most the radius away from an index, with their own indices. -/
def near (tokens : List String) (index : Nat) : List (String × Nat) :=
  tokens.zipIdx.filter fun entry =>
    index ≤ entry.2 + windowRadius && entry.2 ≤ index + windowRadius

/-- The window as it is written, token after token, with words for the bounds. -/
def scanWindow (tokens : List String) (index : UInt64) : String :=
  let start := saturatingSub index (.ofNat windowRadius)
  let stop := min (saturatingAdd index (.ofNat (windowRadius + 1))) (.ofNat tokens.length)
  let context := ((tokens.zipIdx.take stop.toNat).drop start.toNat).foldl
    (fun context (token, i) =>
      if UInt64.ofNat i = index then context ++ ">>" ++ token ++ "<<" else context ++ token) ""
  if .ofNat tokens.length ≤ index then context ++ ">><end><<" else context

/-- Cutting a numbered list at two bounds keeps the entries with numbers between them. -/
theorem drop_take_zipIdx {α : Type} (xs : List α) (n low high : Nat) :
    ((xs.zipIdx n).take (high + 1 - n)).drop (low - n) =
      (xs.zipIdx n).filter fun entry => low ≤ entry.2 && entry.2 ≤ high := by
  induction xs generalizing n with
  | nil => simp
  | cons x xs ih =>
    have hrest := ih (n + 1)
    rw [List.zipIdx_cons, List.filter_cons]
    obtain hpast | hreached : high < n ∨ n ≤ high := Nat.lt_or_ge high n
    · rw [Nat.sub_eq_zero_of_le (show high + 1 ≤ n + 1 by omega)] at hrest
      rw [Nat.sub_eq_zero_of_le hpast, if_neg (by simp; omega), ← hrest]
      simp
    · rw [show high + 1 - n = high + 1 - (n + 1) + 1 by omega, List.take_succ_cons]
      obtain hbefore | hbegun : n < low ∨ low ≤ n := Nat.lt_or_ge n low
      · rw [show low - n = low - (n + 1) + 1 by omega, List.drop_succ_cons, hrest,
          if_neg (by simp; omega)]
      · rw [Nat.sub_eq_zero_of_le (show low ≤ n + 1 by omega)] at hrest
        rw [Nat.sub_eq_zero_of_le hbegun, if_pos (by simp; omega), ← hrest, List.drop_zero,
          List.drop_zero]

theorem take_zipIdx {α : Type} (xs : List α) (n k : Nat) :
    (xs.zipIdx n).take k = (xs.take k).zipIdx n := by
  refine List.ext_getElem? fun i => ?_
  rw [List.getElem?_take, List.getElem?_zipIdx, List.getElem?_zipIdx, List.getElem?_take]
  split
  · rfl
  · rfl

theorem drop_zipIdx {α : Type} (xs : List α) (n k : Nat) :
    (xs.zipIdx n).drop k = (xs.drop k).zipIdx (n + k) := by
  refine List.ext_getElem? fun i => ?_
  rw [List.getElem?_drop, List.getElem?_zipIdx, List.getElem?_zipIdx, List.getElem?_drop,
    Nat.add_assoc]

theorem near_eq_drop_take (tokens : List String) (index : Nat) : near tokens index =
    (tokens.zipIdx.take (index + windowRadius + 1)).drop (index - windowRadius) := by
  have hcut := drop_take_zipIdx tokens 0 (index - windowRadius) (index + windowRadius)
  simp only [Nat.sub_zero, Nat.sub_le_iff_le_add] at hcut
  exact hcut.symm

/-- The tokens near an index are one part of the list. -/
theorem near_eq_zipIdx (tokens : List String) (index : Nat) : near tokens index =
    ((tokens.take (index + windowRadius + 1)).drop (index - windowRadius)).zipIdx
      (index - windowRadius) := by
  rw [near_eq_drop_take, take_zipIdx, drop_zipIdx, Nat.zero_add]

/-- The words for the bounds cut out the tokens near the index, whatever the index. -/
theorem drop_take_words {tokens : List String} (h : tokens.length < UInt64.size) (index : UInt64) :
    (tokens.zipIdx.take (min (saturatingAdd index (.ofNat (windowRadius + 1)))
      (.ofNat tokens.length)).toNat).drop (saturatingSub index (.ofNat windowRadius)).toNat =
      near tokens index.toNat := by
  have hradius : (UInt64.ofNat windowRadius).toNat = windowRadius := rfl
  have hbehind : (UInt64.ofNat (windowRadius + 1)).toNat = windowRadius + 1 := rfl
  have hlength : (UInt64.ofNat tokens.length).toNat = tokens.length := UInt64.toNat_ofNat_of_lt' h
  -- past the largest word there are no tokens
  have hstop : min (min (index.toNat + (windowRadius + 1)) (UInt64.size - 1)) tokens.length =
      min (index.toNat + windowRadius + 1) tokens.zipIdx.length := by
    rw [List.length_zipIdx]
    omega
  rw [toNat_saturatingSub, toNat_min, toNat_saturatingAdd, hradius, hbehind, hlength, hstop,
    near_eq_drop_take, ← List.take_eq_take_min]

/-- The mark is put around the token at the index. -/
theorem foldl_marked {entries : List (String × Nat)} {index : UInt64}
    (h : ∀ entry ∈ entries, entry.2 < UInt64.size) (context : String) :
    entries.foldl (fun context (token, i) =>
      if UInt64.ofNat i = index then context ++ ">>" ++ token ++ "<<" else context ++ token)
      context = context ++ String.join (entries.map (markedAt index.toNat)) := by
  induction entries generalizing context with
  | nil => simp
  | cons entry entries ih =>
    obtain ⟨hentry, hentries⟩ := List.forall_mem_cons.mp h
    have hindex : UInt64.ofNat entry.2 = index ↔ entry.2 = index.toNat := by
      rw [← UInt64.toNat_inj, UInt64.toNat_ofNat_of_lt' hentry]
    rw [List.foldl_cons, ih hentries, List.map_cons, String.join_cons, markedAt]
    simp only [hindex]
    split
    · simp only [String.append_assoc]
    · rw [String.append_assoc]

/-- Away from the index no token is marked. -/
theorem map_markedAt_zipIdx {tokens : List String} {index first : Nat}
    (h : index < first ∨ first + tokens.length ≤ index) :
    (tokens.zipIdx first).map (markedAt index) = tokens := by
  have hplain : ∀ entry ∈ tokens.zipIdx first, markedAt index entry = entry.1 := by
    intro entry hentry
    have hlow := List.le_snd_of_mem_zipIdx hentry
    have hhigh := List.snd_lt_add_of_mem_zipIdx hentry
    rw [markedAt, if_neg (by omega)]
  rw [List.map_congr_left hplain]
  exact List.zipIdx_map_fst ..

/-- The end of the list, where it is marked. -/
def endMark (tokens : List String) (index : Nat) : String :=
  if tokens.length ≤ index then ">><end><<" else ""

/-- A token with what is near it on both sides. -/
structure Surrounded (tokens : List String) (index : Nat) (before : List String) (token : String)
    (after : List String) : Prop where
  /-- Where the tokens stand in the list. -/
  split : ∃ left right, tokens = left ++ before ++ token :: after ++ right ∧
    left.length + before.length = index
  length_before : before.length = min windowRadius index
  length_after : after.length = min windowRadius (tokens.length - (index + 1))

theorem surrounded {tokens : List String} {index : Nat} (h : index < tokens.length) :
    Surrounded tokens index ((tokens.take index).drop (index - windowRadius)) tokens[index]
      ((tokens.drop (index + 1)).take windowRadius) where
  split := by
    refine ⟨(tokens.take index).take (index - windowRadius),
      (tokens.drop (index + 1)).drop windowRadius, ?_, ?_⟩
    · rw [List.take_append_drop, List.append_assoc, List.cons_append, List.take_append_drop,
        List.getElem_cons_drop, List.take_append_drop]
    · rw [← List.length_append, List.take_append_drop, List.length_take]
      omega
  length_before := by
    rw [List.length_drop, List.length_take]
    omega
  length_after := by rw [List.length_take, List.length_drop]

theorem window_of_lt {tokens : List String} {index : Nat} (h : index < tokens.length) :
    window tokens index = String.join ((tokens.take index).drop (index - windowRadius)) ++ ">>" ++
      tokens[index] ++ "<<" ++ String.join ((tokens.drop (index + 1)).take windowRadius) := by
  rw [window, List.getElem?_eq_getElem h]

theorem window_of_le {tokens : List String} {index : Nat} (h : tokens.length ≤ index) :
    window tokens index = String.join (tokens.drop (index - windowRadius)) ++ ">><end><<" := by
  rw [window, List.getElem?_eq_none h, List.take_of_length_le h,
    List.drop_eq_nil_of_le (by omega : tokens.length ≤ index + 1)]
  simp [String.append_assoc]

theorem near_of_lt {tokens : List String} {index : Nat} (h : index < tokens.length) :
    (tokens.take (index + windowRadius + 1)).drop (index - windowRadius) =
      (tokens.take index).drop (index - windowRadius) ++
        tokens[index] :: (tokens.drop (index + 1)).take windowRadius := by
  have hbefore : index - windowRadius ≤ (tokens.take index).length := by
    rw [List.length_take]
    omega
  rw [Nat.add_assoc, List.take_add, List.drop_eq_getElem_cons h, List.take_succ_cons,
    List.drop_append_of_le_length hbefore]

/-- The window is the tokens near the index, with a mark around the one at the index or behind
the last one. -/
theorem window_eq_join (tokens : List String) (index : Nat) : window tokens index =
    String.join ((near tokens index).map (markedAt index)) ++ endMark tokens index := by
  rw [near_eq_zipIdx]
  obtain hlt | hle := Nat.lt_or_ge index tokens.length
  · have hplace : index - windowRadius +
        ((tokens.take index).drop (index - windowRadius)).length = index := by
      rw [(surrounded hlt).length_before]
      omega
    have hmark : markedAt index (tokens[index], index) = ">>" ++ tokens[index] ++ "<<" :=
      if_pos rfl
    rw [near_of_lt hlt, List.zipIdx_append, List.zipIdx_cons, hplace, List.map_append,
      List.map_cons, map_markedAt_zipIdx (.inr (Nat.le_of_eq hplace)),
      map_markedAt_zipIdx (.inl (Nat.lt_succ_self index)), hmark, endMark,
      if_neg (Nat.not_le_of_lt hlt), String.append_empty, String.join_append, String.join_cons,
      window_of_lt hlt]
    simp only [String.append_assoc]
  · have hpast : index - windowRadius + (tokens.drop (index - windowRadius)).length ≤ index ∨
        tokens.drop (index - windowRadius) = [] := by
      rw [List.length_drop, List.drop_eq_nil_iff]
      omega
    have hplain : ((tokens.drop (index - windowRadius)).zipIdx (index - windowRadius)).map
        (markedAt index) = tokens.drop (index - windowRadius) := by
      obtain hpast | hnone := hpast
      · exact map_markedAt_zipIdx (.inr hpast)
      · rw [hnone]
        rfl
    rw [window_of_le hle, List.take_of_length_le (by omega), hplain, endMark, if_pos hle]

theorem scanWindow_eq_window {tokens : List String} (h : tokens.length < UInt64.size)
    (index : UInt64) : scanWindow tokens index = window tokens index.toNat := by
  have hindices : ∀ entry ∈ near tokens index.toNat, entry.2 < UInt64.size := by
    intro entry hentry
    have hlt := List.snd_lt_of_mem_zipIdx (List.mem_filter.mp hentry).1
    omega
  have hend : UInt64.ofNat tokens.length ≤ index ↔ tokens.length ≤ index.toNat := by
    rw [UInt64.le_iff_toNat_le, UInt64.toNat_ofNat_of_lt' h]
  rw [window_eq_join, scanWindow, drop_take_words h, foldl_marked hindices, String.empty_append,
    endMark]
  simp only [hend]
  split
  · rfl
  · rw [String.append_empty]

/-- For every index that a word can hold, the window is the tokens at most the radius away, in
their order and with nothing between them. The token at the index is marked and no other one, or
else the end is, behind the last tokens and also where none of these is near. The bounds never
leave their range, and of a list nothing matters but the tokens near the index and whether the
index is past the end. -/
theorem window_exact (tokens : List String) (index : UInt64) :
    (tokens.length < UInt64.size → scanWindow tokens index = window tokens index.toNat) ∧
    window tokens index.toNat = String.join
      ((near tokens index.toNat).map (markedAt index.toNat)) ++ endMark tokens index.toNat ∧
    (index.toNat < tokens.length → ∃ before token after,
      Surrounded tokens index.toNat before token after ∧ window tokens index.toNat =
        String.join before ++ ">>" ++ token ++ "<<" ++ String.join after) ∧
    (tokens.length ≤ index.toNat → window tokens index.toNat =
      String.join (tokens.drop (index.toNat - windowRadius)) ++ ">><end><<") ∧
    (tokens.length + windowRadius ≤ index.toNat → window tokens index.toNat = ">><end><<") ∧
    ∀ tokens' : List String,
      (near tokens index.toNat).map (·.1) = (near tokens' index.toNat).map (·.1) →
      (tokens.length ≤ index.toNat ↔ tokens'.length ≤ index.toNat) →
      window tokens index.toNat = window tokens' index.toNat := by
  refine ⟨fun h => scanWindow_eq_window h index, window_eq_join tokens _, fun hlt => ?_,
    window_of_le, fun hfar => ?_, fun tokens' hnear hend => ?_⟩
  · exact ⟨_, _, _, surrounded hlt, window_of_lt hlt⟩
  · rw [window_of_le (Nat.le_of_add_right_le hfar), List.drop_eq_nil_of_le (by omega)]
    rfl
  · have hsame : near tokens index.toNat = near tokens' index.toNat := by
      rw [near_eq_zipIdx, near_eq_zipIdx, List.zipIdx_map_fst, List.zipIdx_map_fst] at hnear
      rw [near_eq_zipIdx, near_eq_zipIdx, hnear]
    rw [window_eq_join, window_eq_join, hsame, endMark, endMark]
    simp only [hend]

/-- The first of twelve tokens is too far from the last one to be seen. -/
theorem window_exact_twelve :
    let tokens := List.replicate 12 "x"
    let tokens' := "y" :: List.replicate 11 "x"
    tokens.length < UInt64.size ∧ scanWindow tokens 11 = window tokens 11 ∧
    (∃ before token after, Surrounded tokens 11 before token after ∧ window tokens 11 =
      String.join before ++ ">>" ++ token ++ "<<" ++ String.join after) ∧
    (near tokens 11).map (·.1) = (near tokens' 11).map (·.1) ∧
    (tokens.length ≤ 11 ↔ tokens'.length ≤ 11) ∧ window tokens 11 = window tokens' 11 ∧
    scanWindow tokens (.ofNat (UInt64.size - 1)) = ">><end><<" := by
  intro tokens tokens'
  have hlength : tokens.length < UInt64.size := by decide
  have hnear : (near tokens 11).map (·.1) = (near tokens' 11).map (·.1) := by decide
  have hend : tokens.length ≤ 11 ↔ tokens'.length ≤ 11 := by decide
  obtain ⟨hscan, -, hwithin, -, -, hsame⟩ := window_exact tokens 11
  obtain ⟨hscan', -, -, -, hfar, -⟩ := window_exact tokens (.ofNat (UInt64.size - 1))
  exact ⟨hlength, hscan hlength, hwithin (by decide), hnear, hend, hsame tokens' hnear hend,
    (hscan' hlength).trans (hfar (by decide))⟩

end FormulaEngine
