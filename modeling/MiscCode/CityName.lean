import MiscCode.Join
import MiscCode.Numeral
import MiscCode.Text
import Mathlib.Data.Char
import Mathlib.Data.List.Lex
import Mathlib.Data.Prod.Lex

/-!
# The cities of the users

`parse_city_name` of `city_info/stats.sh` sorts the users by the number of their city, and joins
them with `code.txt`, which is sorted by code. The join compares the numbers as texts : a number
that is smaller, but a greater text, in front of a user makes the join pass the city of that user.
The users with `null` in their line are left out of the join, and printed as they are.

`parse_city_name_iff` says for which users the output is the left join.
-/

open Text Join

namespace MiscCode.CityName

/-! ## The script -/

/-- A field of a line, counted from one, empty if there is none. -/
def field (n : ℕ) (l : List Char) : List Char :=
  (words l).getD (n - 1) []

/-- `grep -i 'null'`. -/
def isNull (l : List Char) : Bool :=
  l.tails.any fun s => "null".toList.isPrefixOf (s.map Char.toLower)

/-- What `sort -n -k4,4` compares : the numbers of the fourth fields, which have no sign and no
fraction, and for the same number the lines. -/
def sortKey (l : List Char) : ℕ ×ₗ List Char :=
  toLex (Numeral.number 10 ((field 4 l).takeWhile Char.isDigit), l)

/-- `sort -n -k4,4`. -/
def sortN (ls : List (List Char)) : List (List Char) :=
  ls.insertionSort fun a b => sortKey a ≤ sortKey b

/-- What `join -j1 4 -j2 1` prints of a line and the one it is paired with. -/
def joined (p : List Char × Option (List Char)) : List Char :=
  unwords (field 4 p.1 :: ((words p.1).eraseIdx 3 ++ p.2.elim [] fun y => (words y).drop 1))

/-- `awk '{print $2,$3,$4,$1,$5}'`. -/
def print (l : List Char) : List Char :=
  unwords ([2, 3, 4, 1, 5].map (field · l))

/-- The lines of the user information and of `code.txt`. -/
def parse_city_name (uinfo code : List (List Char)) : List (List Char) :=
  ((joinA1 (field 4) (field 1) (sortN ((uinfo.filter (words · ≠ [])).filter (!isNull ·)))
    code).map joined).map print ++ uinfo.filter isNull

/-! ## Users and cities -/

/-- A user : a line with four fields, the last one a number. -/
structure User where
  line : List Char
  uid : List Char
  school_id : List Char
  school_name : List Char
  city_id : List Char
  words_line : words line = [uid, school_id, school_name, city_id]
  city_id_digits : city_id.all Char.isDigit = true

/-- A city : a line with two fields. -/
structure City where
  line : List Char
  code : List Char
  name : List Char
  words_line : words line = [code, name]

/-- A table of cities, sorted by their codes. -/
structure CityTable where
  cities : List City
  sorted : cities.Pairwise fun a b => a.code < b.code

/-- The city with a code. -/
def CityTable.find (t : CityTable) (code : List Char) : Option City :=
  t.cities.find? (·.code = code)

/-- A user, with the name of the city if the table has it. -/
def row (u : User) (c : Option City) : List (List Char) :=
  [u.uid, u.school_id, u.school_name, u.city_id] ++ (c.map City.name).toList

def rows (ps : List (User × Option City)) : List (List (List Char)) :=
  ps.map fun p => row p.1 p.2

/-- Every user is in the output once, with the name of the city if the table has it. -/
def Right (uinfo : List User) (t : CityTable) : Prop :=
  ((parse_city_name (uinfo.map User.line) (t.cities.map City.line)).map words).Perm
    (uinfo.map fun u => row u (t.find u.city_id))

/-- A user is sorted before another. -/
def User.Before (u v : User) : Prop :=
  sortKey u.line < sortKey v.line

/-- No user with `null` in the line has a city of the table. For the others : who has another
number than a user with a city of the table, and is sorted before that user, has a smaller text
as the number, and is sorted before all users with that city. -/
def Sound (uinfo : List User) (t : CityTable) : Prop :=
  (∀ u ∈ uinfo, isNull u.line → t.find u.city_id = none) ∧
    ∀ u ∈ uinfo.filter (!isNull ·.line), ∀ v ∈ uinfo.filter (!isNull ·.line),
      (t.find u.city_id).isSome → v.city_id ≠ u.city_id → v.Before u →
        v.city_id < u.city_id ∧
          ∀ w ∈ uinfo.filter (!isNull ·.line), w.city_id = u.city_id → v.Before w

/-! ## Lines -/

section Lines

theorem User.field_four (u : User) : field 4 u.line = u.city_id := by
  rw [field, u.words_line]
  rfl

theorem City.field_one (c : City) : field 1 c.line = c.code := by
  rw [field, c.words_line]
  rfl

/-- What is printed of a user is read as the user with the name of the city. -/
theorem words_print (u : User) (c : Option City) :
    words (print (joined (u.line, c.map City.line))) = row u c := by
  have hu : ∀ w ∈ [u.uid, u.school_id, u.school_name, u.city_id],
      w ≠ [] ∧ ∀ c ∈ w, isBlank c = false := fun w hw =>
    forall_mem_words (u.words_line ▸ hw)
  have hc : ∀ w ∈ (c.map City.name).toList, w ≠ [] ∧ ∀ c ∈ w, isBlank c = false := by
    intro w hw
    obtain ⟨d, rfl, rfl⟩ := by simpa using hw
    exact forall_mem_words (t := d.line) (by simp [d.words_line])
  have hjoined : words (joined (u.line, c.map City.line)) =
      [u.city_id, u.uid, u.school_id, u.school_name] ++ (c.map City.name).toList := by
    have hrest : (c.map City.line).elim [] (fun y => (words y).drop 1) =
        (c.map City.name).toList := by
      cases c with
      | none => rfl
      | some c => simp [c.words_line]
    rw [joined, u.field_four, u.words_line, hrest]
    have hfields : ∀ w ∈ [u.city_id, u.uid, u.school_id, u.school_name],
        w ≠ [] ∧ ∀ b ∈ w, isBlank b = false := by
      intro w hw
      refine hu w ?_
      simp only [List.mem_cons, List.not_mem_nil, or_false] at hw ⊢
      tauto
    exact words_unwords (List.forall_mem_append.2 ⟨hfields, hc⟩)
  have hprint : print (joined (u.line, c.map City.line)) =
      unwords [u.uid, u.school_id, u.school_name, u.city_id, (c.map City.name).getD []] := by
    simp only [print, field, hjoined]
    cases c <;> rfl
  rw [hprint, row]
  cases c with
  | none =>
    have hblank : unwords [u.uid, u.school_id, u.school_name, u.city_id, []] =
        unwords [u.uid, u.school_id, u.school_name, u.city_id] ++ [' '] := by
      simp [unwords, List.intercalate]
    exact (congrArg words hblank).trans (words_unwords_append hu [])
  | some c => exact words_unwords (List.forall_mem_append.2 ⟨hu, hc⟩)

/-- Rows in which names are missing are the same rows in some order only if none is missing. -/
theorem perm_rows_iff {ps qs : List (User × Option City)}
    (h : List.Forall₂ (fun p q => p.1 = q.1 ∧ (p.2 = q.2 ∨ p.2 = none)) ps qs) :
    (rows ps).Perm (rows qs) ↔ ps = qs := by
  -- the words are counted
  have hcount : ((rows ps).map List.length).sum ≤ ((rows qs).map List.length).sum ∧
      (((rows ps).map List.length).sum = ((rows qs).map List.length).sum → ps = qs) := by
    unfold rows
    induction h with
    | nil => simp
    | @cons p q ps qs hpq _ ih =>
      obtain ⟨hfst, hsnd⟩ := hpq
      simp only [List.map_cons, List.sum_cons, List.cons.injEq]
      by_cases heq : p.2 = q.2
      · rw [hfst, heq]
        exact ⟨by omega, fun h => ⟨Prod.ext hfst heq, ih.2 (by omega)⟩⟩
      · have hnone := hsnd.resolve_left heq
        obtain ⟨c, hc⟩ := Option.ne_none_iff_exists'.1 fun h => heq (hnone.trans h.symm)
        have hp : (row p.1 p.2).length = 4 := by rw [hnone]; rfl
        have hq : (row q.1 q.2).length = 5 := by rw [hc]; rfl
        exact ⟨by omega, fun h => by omega⟩
  constructor
  · exact fun hperm => hcount.2 (hperm.map _).sum_nat
  · rintro rfl
    exact List.Perm.refl _

end Lines

/-! ## The join -/

section Join

variable (uinfo : List User) (t : CityTable)

/-- The users as they are sorted. -/
def sorted : List User :=
  (uinfo.filter (!isNull ·.line)).insertionSort fun u v => sortKey u.line ≤ sortKey v.line

theorem sorted_perm : (sorted uinfo).Perm (uinfo.filter (!isNull ·.line)) :=
  List.perm_insertionSort _ _

theorem pairwise_sorted :
    (sorted uinfo).Pairwise fun u v => sortKey u.line ≤ sortKey v.line := by
  have hmap : (sorted uinfo).map (fun u => sortKey u.line) =
      ((uinfo.filter (!isNull ·.line)).map fun u => sortKey u.line).insertionSort (· ≤ ·) :=
    List.map_insertionSort _ _ _ _ fun _ _ _ _ => Iff.rfl
  rw [← List.pairwise_map (R := (· ≤ ·)), hmap]
  exact List.pairwise_insertionSort _ _

/-- The users with `null` in their line. -/
def nulls : List User :=
  uinfo.filter (isNull ·.line)

/-- The output, read as rows. -/
theorem words_parse_city_name :
    (parse_city_name (uinfo.map User.line) (t.cities.map City.line)).map words =
      rows (joinA1 User.city_id City.code (sorted uinfo) t.cities ++
        (nulls uinfo).map fun u => (u, none)) := by
  have hwords : ∀ u ∈ uinfo, ((fun l => decide (words l ≠ [])) ∘ User.line) u = true :=
    fun u _ => by simp [u.words_line]
  have hsort : sortN (((uinfo.map User.line).filter (words · ≠ [])).filter (!isNull ·)) =
      (sorted uinfo).map User.line := by
    rw [List.filter_map, List.filter_eq_self.2 hwords, List.filter_map, sortN, sorted]
    symm
    exact List.map_insertionSort _ _ _ _ fun _ _ _ _ => Iff.rfl
  have hfour : field 4 ∘ User.line = User.city_id := funext User.field_four
  have hone : field 1 ∘ City.line = City.code := funext City.field_one
  rw [parse_city_name, hsort, joinA1_map, hfour, hone, rows, List.map_append, List.map_append,
    List.map_map, List.map_map, List.map_map, List.filter_map, List.map_map, List.map_map]
  congr 1
  · exact List.map_congr_left fun p _ => words_print p.1 p.2
  · exact List.map_congr_left fun u _ => u.words_line

/-- The output is right if the join is the left join, and the other users have no city. -/
theorem right_iff : Right uinfo t ↔
    joinA1 User.city_id City.code (sorted uinfo) t.cities =
        leftJoin User.city_id City.code (sorted uinfo) t.cities ∧
      ∀ u ∈ uinfo, isNull u.line → t.find u.city_id = none := by
  have hall : (uinfo.map fun u => row u (t.find u.city_id)).Perm
      (rows (leftJoin User.city_id City.code (sorted uinfo) t.cities ++
        (nulls uinfo).map fun u => (u, t.find u.city_id))) := by
    have hrows : rows (leftJoin User.city_id City.code (sorted uinfo) t.cities ++
        (nulls uinfo).map fun u => (u, t.find u.city_id)) =
          (sorted uinfo ++ nulls uinfo).map fun u => row u (t.find u.city_id) := by
      simp [rows, leftJoin, CityTable.find, Function.comp_def]
    have hparts : uinfo.Perm (sorted uinfo ++ nulls uinfo) :=
      (List.filter_append_perm _ uinfo).symm.trans
        (List.perm_append_comm.trans (List.Perm.append_right _ (sorted_perm uinfo).symm))
    exact hrows ▸ hparts.map _
  have hsub : List.Forall₂ (fun p q => p.1 = q.1 ∧ (p.2 = q.2 ∨ p.2 = none))
      (joinA1 User.city_id City.code (sorted uinfo) t.cities ++
        (nulls uinfo).map fun u => (u, none))
      (leftJoin User.city_id City.code (sorted uinfo) t.cities ++
        (nulls uinfo).map fun u => (u, t.find u.city_id)) := by
    refine List.rel_append (forall₂_joinA1 t.sorted) ?_
    rw [List.forall₂_map_left_iff, List.forall₂_map_right_iff, List.forall₂_same]
    exact fun u _ => ⟨rfl, Or.inr rfl⟩
  rw [Right, words_parse_city_name, List.Perm.congr_right hall, perm_rows_iff hsub]
  constructor
  · intro h
    obtain ⟨hjoin, hnull⟩ := List.append_inj h (by simp [(forall₂_joinA1 t.sorted).length_eq])
    refine ⟨hjoin, fun u hu hisnull => ?_⟩
    have hmem : u ∈ nulls uinfo := List.mem_filter.2 ⟨hu, hisnull⟩
    exact (congrArg Prod.snd (List.map_inj_left.1 hnull u hmem)).symm
  · rintro ⟨hjoin, hnull⟩
    rw [hjoin]
    congr 1
    refine List.map_congr_left fun u hu => ?_
    obtain ⟨hu, hisnull⟩ := List.mem_filter.1 hu
    rw [hnull u hu hisnull]

/-- The users that are reached, by what is sorted before them. -/
theorem reached_iff : (∀ pre u post, sorted uinfo = pre ++ u :: post →
      (t.find u.city_id).isSome → Reached User.city_id pre u) ↔
    ∀ u ∈ uinfo.filter (!isNull ·.line), ∀ v ∈ uinfo.filter (!isNull ·.line),
      (t.find u.city_id).isSome → v.city_id ≠ u.city_id → v.Before u →
        v.city_id < u.city_id ∧
          ∀ w ∈ uinfo.filter (!isNull ·.line), w.city_id = u.city_id → v.Before w := by
  simp only [← (sorted_perm uinfo).mem_iff]
  have hsorted := pairwise_sorted uinfo
  -- users with other numbers are on other lines
  have hbefore : ∀ u v : User, sortKey v.line ≤ sortKey u.line → v.city_id ≠ u.city_id →
      v.Before u := fun u v hle hne => lt_of_le_of_ne hle fun heq => hne <| by
    have hline : v.line = u.line := congrArg (fun k => (ofLex k).2) heq
    rw [← u.field_four, ← v.field_four, hline]
  constructor
  · intro h u hu v hv hfind hne hvu
    obtain ⟨pre, post, hpre⟩ := List.append_of_mem hu
    rw [hpre] at hsorted
    obtain ⟨hple, hpost, hcross⟩ := List.pairwise_append.1 hsorted
    -- what is sorted before the user stands before it
    have hmem : ∀ w ∈ sorted uinfo, w.Before u → w ∈ pre := by
      intro w hw hwu
      rw [hpre, List.mem_append, List.mem_cons] at hw
      rcases hw with hw | rfl | hw
      · exact hw
      · exact absurd hwu (lt_irrefl _)
      · exact absurd hwu ((List.pairwise_cons.1 hpost).1 w hw).not_gt
    obtain ⟨hle, hkeys⟩ := h pre u post hpre hfind
    refine ⟨lt_of_le_of_ne (hle v (hmem v hv hvu)) hne, fun w hw hwu => ?_⟩
    by_contra hvw
    have hwv := hbefore v w (not_lt.1 hvw) (hwu ▸ hne.symm)
    obtain ⟨l, r, hlr⟩ := List.append_of_mem (hmem v hv hvu)
    rw [hlr] at hple hkeys
    have hwl : w ∈ l := by
      have hwpre := hmem w hw (hwv.trans hvu)
      rw [hlr, List.mem_append, List.mem_cons] at hwpre
      rcases hwpre with hw | rfl | hw
      · exact hw
      · exact absurd hwv (lt_irrefl _)
      · exact absurd hwv ((List.pairwise_cons.1 (List.pairwise_append.1 hple).2.1).1 w hw).not_gt
    exact hne ((List.pairwise_append.1 hkeys).2.2 w hwl v List.mem_cons_self hwu)
  · intro h pre u post hpre hfind
    rw [hpre] at hsorted h
    obtain ⟨hple, -, hcross⟩ := List.pairwise_append.1 hsorted
    have hu : u ∈ pre ++ u :: post := by simp
    have hsmall : ∀ v ∈ pre, v.city_id ≠ u.city_id → v.city_id < u.city_id ∧
        ∀ w ∈ pre, w.city_id = u.city_id → v.Before w := fun v hv hne =>
      (h u hu v (by simp [hv]) hfind hne
        (hbefore u v (hcross v hv u List.mem_cons_self) hne)).imp_right
          fun hall w hw => hall w (by simp [hw])
    refine ⟨fun v hv => ?_, hple.imp_of_mem fun {w v} hw hv hwv hwu => ?_⟩
    · by_cases hne : v.city_id = u.city_id
      exacts [hne.le, (hsmall v hv hne).1.le]
    · by_contra hne
      exact absurd ((hsmall v hv hne).2 w hw hwu) hwv.not_gt

/-- Numbers of one length are sorted as texts are, and then only `null` is in the way. -/
theorem right_of_length {n : ℕ} (hlen : ∀ u ∈ uinfo, u.city_id.length = n)
    (hnull : ∀ u ∈ uinfo, isNull u.line → t.find u.city_id = none) : Right uinfo t := by
  have hnumber : ∀ u : User, (sortKey u.line).1 = Numeral.number 10 u.city_id := fun u => by
    have hall : u.city_id.takeWhile Char.isDigit = u.city_id :=
      List.takeWhile_eq_self_iff.2 (List.all_eq_true.1 u.city_id_digits)
    rw [← congrArg (Numeral.number 10) hall, ← u.field_four]
    rfl
  have hids : (sorted uinfo).Pairwise fun u v => u.city_id ≤ v.city_id := by
    refine (pairwise_sorted uinfo).imp_of_mem fun {u v} hu hv huv => not_lt.1 fun hlt => ?_
    have hmem : ∀ {w}, w ∈ sorted uinfo → w.city_id.length = n := fun hw =>
      hlen _ (List.mem_filter.1 ((sorted_perm uinfo).mem_iff.1 hw)).1
    have hnum := Numeral.number_lt_number hlt ((hmem hv).trans (hmem hu).symm)
      (List.all_eq_true.1 v.city_id_digits) (List.all_eq_true.1 u.city_id_digits)
    rw [← hnumber, ← hnumber] at hnum
    exact absurd (Prod.Lex.toLex_lt_toLex.2 (Or.inl hnum)) huv.not_gt
  refine right_iff uinfo t |>.2 ⟨(joinA1_eq_leftJoin_iff t.sorted).2 fun pre u post hpre _ => ?_,
    hnull⟩
  refine reached_of_sorted (hids.sublist ?_)
  rw [hpre]
  exact (List.sublist_append_left (pre ++ [u]) post).trans (by simp)

end Join

/-- The output has every user once, with the name of the city if the table has it, if and only if
no user with `null` in the line has a city of the table, and no other user makes the join pass the
city of one that is sorted behind. -/
theorem parse_city_name_iff (uinfo : List User) (t : CityTable) :
    Right uinfo t ↔ Sound uinfo t := by
  rw [right_iff, joinA1_eq_leftJoin_iff t.sorted, and_comm, Sound]
  exact and_congr_right fun _ => reached_iff uinfo t

/-! ## Numbers of different lengths -/

/-- Who has a number that is smaller than the codes, and a greater text, makes the join pass them :
the user behind has no city. -/
theorem short_number : ¬Right
    [⟨"1\t10\ta\t99".toList, ['1'], "10".toList, ['a'], "99".toList, by decide, by decide⟩,
      ⟨"2\t10\ta\t110000".toList, ['2'], "10".toList, ['a'], "110000".toList, by decide,
        by decide⟩]
    ⟨[⟨"110000 北京市".toList, "110000".toList, "北京市".toList, by decide⟩,
      ⟨"110100 市辖区".toList, "110100".toList, "市辖区".toList, by decide⟩], by decide⟩ := by
  unfold Right
  decide +kernel

end MiscCode.CityName
