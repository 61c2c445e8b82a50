import TuneRelay.Proofs.Mml.Erasure

/-!
# What the warnings count

A scan tells from two offsets and two counts how an escape came to stand together. The warnings
count by that the escapes that stood apart in the raw text, and with those that stood together they
account for every character that is missing from the output.
-/
namespace TuneRelay.Mml

/-- The raw text from the first character of an escape to its last. -/
def stretch (raw : List Char) (w : List Placed) : List Char :=
  raw.extract ((w.map Prod.snd).headD 0) ((w.map Prod.snd).getLastD 0 + 1)

/-- The escape stands in the raw text without a gap. -/
def isContiguous (raw : List Char) (w : List Placed) : Bool := stretch raw w == letters w

/-- Something that is stripped stands between the ends of the escape. -/
def isSpliced (raw : List Char) (w : List Placed) : Bool :=
  (stretch raw w).any fun c => !isPrintable c

/-- The number of places at which an escape stands without a gap. -/
def countEscapes (raw : List Char) : Nat :=
  (List.range raw.length).countP fun i => isEscape (raw.extract i (i + 5))

/-- How many of the first characters are stripped. -/
def strippedBefore (raw : List Char) (n : Nat) : Nat := (raw.take n).countP fun c => !isPrintable c

/-- How many bytes the first characters have. -/
def bytesBefore (raw : List Char) (n : Nat) : Nat := ((raw.take n).map Char.utf8Size).sum

variable {raw : List Char}

theorem pairwise_zipIdx (raw : List Char) : raw.zipIdx.Pairwise fun p q => p.2 < q.2 := by
  have hplaces : (raw.zipIdx.map Prod.snd).Pairwise (· < ·) := by
    rw [List.zipIdx_map_snd]
    exact List.pairwise_lt_range' 1
  exact List.pairwise_map.mp hplaces

theorem strippedBefore_succ {n : Nat} {c : Char} (h : raw[n]? = some c) :
    strippedBefore raw (n + 1) = strippedBefore raw n + if isPrintable c then 0 else 1 := by
  rw [strippedBefore, strippedBefore, List.take_add_one, h, List.countP_append]
  cases hc : isPrintable c <;> simp [hc]

/-- More is stripped before the last of two characters if something stripped stands between them. -/
theorem strippedBefore_lt_iff {a b : Nat} (hab : a ≤ b) {c : Char} (hb : raw[b]? = some c)
    (hc : isPrintable c = true) : strippedBefore raw a < strippedBefore raw b ↔
      (raw.extract a (b + 1)).any (fun c => !isPrintable c) = true := by
  obtain ⟨k, rfl⟩ := Nat.exists_eq_add_of_le hab
  have hlast : raw.extract a (a + k + 1) = (raw.drop a).take k ++ [c] := by
    have hlength : a + k + 1 - a = k + 1 := by omega
    rw [List.extract, hlength, List.take_add_one, List.getElem?_drop, hb]
    rfl
  have hcount : strippedBefore raw (a + k) =
      strippedBefore raw a + ((raw.drop a).take k).countP fun c => !isPrintable c := by
    rw [strippedBefore, List.take_add, List.countP_append]
    rfl
  rw [hcount, hlast, List.any_append, Nat.lt_add_right_iff_pos, List.countP_pos_iff]
  simp [hc]

theorem utf8Size_of_isPrintable {c : Char} (h : isPrintable c = true) : c.utf8Size = 1 := by
  simp only [isPrintable, Bool.or_eq_true, beq_iff_eq, Bool.and_eq_true, decide_eq_true_eq] at h
  rcases h with rfl | ⟨-, hle⟩
  · rfl
  · exact Char.utf8Size_eq_one_iff.mpr (Char.le_trans hle (by decide : '~' ≤ '\x7f'))

theorem bytesBefore_succ {n : Nat} {c : Char} (h : raw[n]? = some c) :
    bytesBefore raw (n + 1) = bytesBefore raw n + c.utf8Size := by
  rw [bytesBefore, bytesBefore, List.take_add_one, h, List.map_append, List.sum_append]
  simp

/-- Between two characters with nothing stripped between them, every character is one byte. -/
theorem bytesBefore_sub {a b : Nat} (hab : a ≤ b) (hb : b < raw.length)
    (h : (raw.extract a (b + 1)).any (fun c => !isPrintable c) = false) :
    bytesBefore raw b - bytesBefore raw a = b - a := by
  obtain ⟨k, rfl⟩ := Nat.exists_eq_add_of_le hab
  have hone : ∀ c ∈ (raw.drop a).take k, c.utf8Size = 1 := by
    intro c hc
    have hin : c ∈ raw.extract a (a + k + 1) := List.take_subset_take_left _ (by omega) hc
    exact utf8Size_of_isPrintable (by simpa using List.any_eq_false.mp h c hin)
  have hlength : ((raw.drop a).take k).length = k := by
    rw [List.length_take, List.length_drop]
    omega
  have hbytes : bytesBefore raw (a + k) = bytesBefore raw a + k := by
    rw [bytesBefore, List.take_add, List.map_append, List.sum_append, List.map_congr_left hone,
      List.map_const', hlength, List.sum_replicate]
    simp [bytesBefore]
  rw [hbytes, Nat.add_sub_cancel_left, Nat.add_sub_cancel_left]

section Five

variable {p₁ p₂ p₃ p₄ p₅ : Placed} (h : [p₁, p₂, p₃, p₄, p₅].Sublist raw.zipIdx)
include h

theorem getElem?_of_five : raw[p₁.2]? = some p₁.1 ∧ raw[p₂.2]? = some p₂.1 ∧
    raw[p₃.2]? = some p₃.1 ∧ raw[p₄.2]? = some p₄.1 ∧ raw[p₅.2]? = some p₅.1 := by
  have hget : ∀ p ∈ [p₁, p₂, p₃, p₄, p₅], raw[p.2]? = some p.1 :=
    fun p hp => List.mem_zipIdx_iff_getElem?.mp (h.subset hp)
  exact ⟨hget p₁ (by simp), hget p₂ (by simp), hget p₃ (by simp), hget p₄ (by simp),
    hget p₅ (by simp)⟩

theorem lt_of_five : p₁.2 < p₂.2 ∧ p₂.2 < p₃.2 ∧ p₃.2 < p₄.2 ∧ p₄.2 < p₅.2 := by
  have hlt := (pairwise_zipIdx raw).sublist h
  simp only [List.pairwise_cons, List.mem_cons, forall_eq_or_imp] at hlt
  exact ⟨hlt.1.1, hlt.2.1.1, hlt.2.2.1.1, hlt.2.2.2.1.1⟩

/-- Five characters stand together if the first and the last are as near as can be. -/
theorem isContiguous_iff_of_five :
    isContiguous raw [p₁, p₂, p₃, p₄, p₅] = true ↔ p₅.2 - p₁.2 = 4 := by
  obtain ⟨h₁, h₂, h₃, h₄, h₅⟩ := getElem?_of_five h
  obtain ⟨h₁₂, h₂₃, h₃₄, h₄₅⟩ := lt_of_five h
  rw [isContiguous, beq_iff_eq]
  change raw.extract p₁.2 (p₅.2 + 1) = [p₁.1, p₂.1, p₃.1, p₄.1, p₅.1] ↔ _
  constructor
  · intro heq
    have hlen := congrArg List.length heq
    have hin := (List.getElem?_eq_some_iff.mp h₅).1
    simp only [List.length_take, List.length_drop, List.length_cons, List.length_nil] at hlen
    omega
  · intro hnear
    -- five places that increase and are no farther apart follow each other
    have e₂ : p₂.2 = p₁.2 + 1 := by omega
    have e₃ : p₃.2 = p₁.2 + 2 := by omega
    have e₄ : p₄.2 = p₁.2 + 3 := by omega
    have e₅ : p₅.2 = p₁.2 + 4 := by omega
    rw [e₂] at h₂
    rw [e₃] at h₃
    rw [e₄] at h₄
    rw [e₅] at h₅ ⊢
    have hlength : p₁.2 + 4 + 1 - p₁.2 = 5 := by omega
    rw [List.extract, hlength]
    apply List.ext_getElem?
    intro i
    rcases i with _ | _ | _ | _ | _ | i
    all_goals simp [List.getElem?_drop, h₁, h₂, h₃, h₄, h₅]

theorem isSpliced_iff_of_five (hp₅ : isPrintable p₅.1 = true) :
    isSpliced raw [p₁, p₂, p₃, p₄, p₅] = true ↔
      strippedBefore raw p₁.2 < strippedBefore raw p₅.2 := by
  obtain ⟨-, -, -, -, h₅⟩ := getElem?_of_five h
  obtain ⟨h₁₂, h₂₃, h₃₄, h₄₅⟩ := lt_of_five h
  have hle : p₁.2 ≤ p₅.2 := by omega
  exact (strippedBefore_lt_iff hle h₅ hp₅).symm

/-- With nothing stripped between five characters, their bytes are as far apart as their places. -/
theorem bytesBefore_sub_of_five (hs : isSpliced raw [p₁, p₂, p₃, p₄, p₅] = false) :
    bytesBefore raw p₅.2 - bytesBefore raw p₁.2 = p₅.2 - p₁.2 := by
  obtain ⟨-, -, -, -, h₅⟩ := getElem?_of_five h
  obtain ⟨h₁₂, h₂₃, h₃₄, h₄₅⟩ := lt_of_five h
  exact bytesBefore_sub (by omega) (List.getElem?_eq_some_iff.mp h₅).1 hs

end Five

theorem isSpliced_of_isContiguous {w : List Placed} (hw : isEscape (letters w) = true)
    (h : isContiguous raw w = true) : isSpliced raw w = false := by
  rw [isContiguous, beq_iff_eq] at h
  rw [isSpliced, h, List.any_eq_false]
  intro c hc
  simp [isPrintable_of_mem_escape hw hc]

/-- A character on the stack of a scan. -/
def keptOf (raw : List Char) (p : Placed) : Kept :=
  ⟨p.1, bytesBefore raw p.2, strippedBefore raw p.2⟩

/-- A scan of the first `n` characters beside the same scan with its places and its escapes. -/
structure Reads (raw : List Char) (n : Nat) (s : Scan) (t : Erasure) : Prop where
  placed : t.stack.reverse.Sublist (raw.zipIdx.take n)
  kept : s.kept = t.stack.map (keptOf raw)
  offset : s.offset = bytesBefore raw n
  stripped : s.stripped = strippedBefore raw n
  nested : s.nested = t.erased.countP fun w => !isSpliced raw w && !isContiguous raw w
  spliced : s.spliced = t.erased.countP fun w => isSpliced raw w && !isContiguous raw w

variable {n : Nat} {s : Scan} {t : Erasure}

/-- The counters see of a removed escape what stands between its ends in the raw text. -/
theorem Reads.settle (h : Reads raw n s t) : Reads raw n s.settle t.settle := by
  rcases s with ⟨kept, offset, stripped, nested, spliced⟩
  rcases t with ⟨stack, erased⟩
  obtain rfl : kept = stack.map (keptOf raw) := h.kept
  rcases stack with _ | ⟨last, _ | ⟨fourth, _ | ⟨third, _ | ⟨second, _ | ⟨first, below⟩⟩⟩⟩⟩
  any_goals exact h
  by_cases he : isEscape [first.1, second.1, third.1, fourth.1, last.1] = true
  · have hplaced : (below.reverse ++ [first, second, third, fourth, last]).Sublist
        (raw.zipIdx.take n) := by simpa using h.placed
    have hbelow : below.reverse.Sublist (raw.zipIdx.take n) :=
      (List.sublist_append_left ..).trans hplaced
    have hw : [first, second, third, fourth, last].Sublist raw.zipIdx :=
      ((List.sublist_append_right ..).trans hplaced).trans (List.take_sublist n _)
    have hlast : isPrintable last.1 = true := isPrintable_of_mem_escape he (by simp)
    have hescape : isEscape (letters [first, second, third, fourth, last]) = true := he
    have hnear := isContiguous_iff_of_five hw
    have hsplice := isSpliced_iff_of_five hw hlast
    have hnested := h.nested
    have hspliced := h.spliced
    simp only [Scan.settle, Erasure.settle, List.map_cons, keptOf, if_pos he]
    -- the scan tests its counters in this order, and what is spliced never stands together
    cases hs : isSpliced raw [first, second, third, fourth, last] with
    | true =>
      have hapart : isContiguous raw [first, second, third, fourth, last] = false := by
        by_contra hc
        rw [isSpliced_of_isContiguous hescape (by simpa using hc)] at hs
        cases hs
      rw [if_pos (hsplice.mp hs)]
      refine ⟨hbelow, rfl, h.offset, h.stripped, ?_, ?_⟩
      · simpa [hs] using hnested
      · simpa [hs, hapart] using hspliced
    | false =>
      rw [if_neg (fun hlt => by simp [hsplice.mpr hlt] at hs), bytesBefore_sub_of_five hw hs]
      cases hc : isContiguous raw [first, second, third, fourth, last] with
      | true =>
        rw [if_pos (hnear.mp hc)]
        refine ⟨hbelow, rfl, h.offset, h.stripped, ?_, ?_⟩
        · simpa [hc] using hnested
        · simpa [hc] using hspliced
      | false =>
        rw [if_neg (fun hfour => by simp [hnear.mpr hfour] at hc)]
        refine ⟨hbelow, rfl, h.offset, h.stripped, ?_, ?_⟩
        · simpa [hs, hc] using hnested
        · simpa [hs] using hspliced
  · simpa only [Scan.settle, Erasure.settle, List.map_cons, keptOf, if_neg he] using h

theorem Reads.read (h : Reads raw n s t) {c : Char} (hc : raw[n]? = some c) :
    Reads raw (n + 1) (s.read c) (t.read (c, n)) := by
  have hstripped := strippedBefore_succ hc
  have hoffset : s.offset + c.utf8Size = bytesBefore raw (n + 1) := by
    rw [h.offset, bytesBefore_succ hc]
  have hread : raw.zipIdx.take (n + 1) = raw.zipIdx.take n ++ [(c, n)] := by
    rw [List.take_add_one, List.getElem?_zipIdx, hc, Nat.zero_add]
    rfl
  by_cases hp : isPrintable c = true
  · rw [if_pos hp, Nat.add_zero] at hstripped
    rw [Scan.read, if_pos hp, Erasure.read, if_pos hp]
    apply Reads.settle
    refine ⟨?_, ?_, hoffset, h.stripped.trans hstripped.symm, h.nested, h.spliced⟩
    · rw [List.reverse_cons, hread]
      exact h.placed.append (.refl _)
    · rw [List.map_cons, ← h.kept, keptOf, h.offset, h.stripped]
  · rw [if_neg hp] at hstripped
    rw [Scan.read, if_neg hp, Erasure.read, if_neg hp]
    refine ⟨?_, h.kept, hoffset, ?_, h.nested, h.spliced⟩
    · rw [hread]
      exact h.placed.trans (List.sublist_append_left ..)
    · rw [hstripped]
      exact congrArg (· + 1) h.stripped

theorem Reads.foldl {rest : List Char} (h : Reads raw n s t) (hrest : raw.drop n = rest) :
    Reads raw (n + rest.length) (rest.foldl Scan.read s)
      ((rest.zipIdx n).foldl Erasure.read t) := by
  induction rest generalizing n s t with
  | nil => exact h
  | cons c rest ih =>
    have hc : raw[n]? = some c := by
      rw [← List.head?_drop, hrest]
      rfl
    have htail : raw.drop (n + 1) = rest := by rw [← List.tail_drop, hrest]; rfl
    have hrun := ih (h.read hc) htail
    rw [Nat.add_right_comm, Nat.add_assoc] at hrun
    exact hrun

theorem reads_scan (raw : List Char) :
    Reads raw raw.length (scan raw) (raw.zipIdx.foldl Erasure.read {}) := by
  have hstart : Reads raw 0 {} {} := ⟨by simp, rfl, rfl, by simp [strippedBefore], rfl, rfl⟩
  have hrun := hstart.foldl (List.drop_zero : raw.drop 0 = raw)
  rw [Nat.zero_add] at hrun
  exact hrun

/-- What stands at a place of the raw text, for the length of an escape. -/
def windowAt (raw : List Char) (i : Nat) : List Placed := (raw.extract i (i + 5)).zipIdx i

theorem letters_windowAt (raw : List Char) (i : Nat) :
    letters (windowAt raw i) = raw.extract i (i + 5) := List.zipIdx_map_fst i _

/-- The places of an escape that stands at a place of the raw text. -/
theorem places_windowAt {i : Nat} (h : isEscape (raw.extract i (i + 5)) = true) :
    (windowAt raw i).map Prod.snd = [i, i + 1, i + 2, i + 3, i + 4] := by
  rw [windowAt, List.zipIdx_map_snd, isEscape_length h]
  rfl

theorem isContiguous_windowAt {i : Nat} (h : isEscape (raw.extract i (i + 5)) = true) :
    isContiguous raw (windowAt raw i) = true := by
  rw [isContiguous, stretch, places_windowAt h, letters_windowAt, beq_iff_eq]
  rfl

theorem exists_split_windowAt {i : Nat} (h : isEscape (raw.extract i (i + 5)) = true) :
    ∃ before after, raw.zipIdx = before ++ windowAt raw i ++ after := by
  have hlen := isEscape_length h
  have hfive : i + 5 - i = 5 := by omega
  simp only [List.extract, hfive, List.length_take, List.length_drop] at hlen
  have hsplit : raw.take i ++ (raw.extract i (i + 5) ++ raw.drop (i + 5)) = raw := by
    rw [List.extract, hfive, ← List.drop_drop, List.take_append_drop, List.take_append_drop]
  have hplace : (raw.take i).length = i := by
    rw [List.length_take]
    omega
  refine ⟨(raw.take i).zipIdx, (raw.drop (i + 5)).zipIdx (i + (raw.extract i (i + 5)).length), ?_⟩
  have hzip := congrArg (List.zipIdx · 0) hsplit
  simp only [List.zipIdx_append, hplace, Nat.zero_add] at hzip
  rw [← hzip, windowAt, List.append_assoc]

/-- An escape without a gap is what stands at its first place. -/
theorem eq_windowAt {w : List Placed} (hsub : w.Sublist raw.zipIdx)
    (hw : isEscape (letters w) = true) (hc : isContiguous raw w = true) :
    ∃ i < raw.length, isEscape (raw.extract i (i + 5)) = true ∧ windowAt raw i = w := by
  have hlen := isEscape_length hw
  rcases w with _ | ⟨p₁, _ | ⟨p₂, _ | ⟨p₃, _ | ⟨p₄, _ | ⟨p₅, _ | ⟨p₆, w⟩⟩⟩⟩⟩⟩
  any_goals simp [letters] at hlen
  have hnear := (isContiguous_iff_of_five hsub).mp hc
  obtain ⟨h₁₂, h₂₃, h₃₄, h₄₅⟩ := lt_of_five hsub
  obtain ⟨h₁, -, -, -, -⟩ := getElem?_of_five hsub
  rw [isContiguous, beq_iff_eq] at hc
  have hlast : p₅.2 + 1 = p₁.2 + 5 := by omega
  have hletters : raw.extract p₁.2 (p₁.2 + 5) = letters [p₁, p₂, p₃, p₄, p₅] := by
    rw [← hc, ← hlast]
    rfl
  refine ⟨p₁.2, (List.getElem?_eq_some_iff.mp h₁).1, by rw [hletters]; exact hw, ?_⟩
  have e₂ : p₁.2 + 1 = p₂.2 := by omega
  have e₃ : p₂.2 + 1 = p₃.2 := by omega
  have e₄ : p₃.2 + 1 = p₄.2 := by omega
  have e₅ : p₄.2 + 1 = p₅.2 := by omega
  simp only [windowAt, hletters, letters, List.map_cons, List.map_nil, List.zipIdx_cons,
    List.zipIdx_nil, e₂, e₃, e₄, e₅]

/-- The escapes that stand together in the raw text are those that are removed as themselves. -/
theorem countP_isContiguous {erased : List (List Placed)} {rest : List Placed}
    (h : Erases raw.zipIdx erased rest) (hclean : Clean (letters rest)) :
    erased.countP (isContiguous raw) = countEscapes raw := by
  have hraw : raw.zipIdx.Nodup := (pairwise_zipIdx raw).imp fun hlt heq => by simp [heq] at hlt
  let places := (List.range raw.length).filter fun i => isEscape (raw.extract i (i + 5))
  have hplaces : (places.map (windowAt raw)).Nodup := by
    apply List.Nodup.map_on _ (List.nodup_range.filter _)
    intro i hi j hj hij
    have hi := places_windowAt (List.mem_filter.mp hi).2
    rw [hij, places_windowAt (List.mem_filter.mp hj).2] at hi
    exact (List.cons.inj hi).1.symm
  have hperm : (erased.filter (isContiguous raw)).Perm (places.map (windowAt raw)) := by
    refine (List.perm_ext_iff_of_nodup ((h.nodup hraw).filter _) hplaces).mpr ?_
    intro w
    rw [List.mem_filter, List.mem_map]
    constructor
    · rintro ⟨hw, hc⟩
      obtain ⟨i, hi, he, rfl⟩ := eq_windowAt (h.sublist_of_mem hw) (h.isEscape_of_mem hw) hc
      exact ⟨i, List.mem_filter.mpr ⟨List.mem_range.mpr hi, he⟩, rfl⟩
    · rintro ⟨i, hi, rfl⟩
      have he : isEscape (raw.extract i (i + 5)) = true := (List.mem_filter.mp hi).2
      obtain ⟨before, after, hsplit⟩ := exists_split_windowAt he
      rw [hsplit] at h
      exact ⟨h.mem_of_isEscape hclean (letters_windowAt raw i ▸ he), isContiguous_windowAt he⟩
  rw [List.countP_eq_length_filter, hperm.length_eq, List.length_map, countEscapes,
    List.countP_eq_length_filter]

/-- At a place of a text stands `$0b` or `$0B`. -/
def prefixAt (text : List Char) (i : Nat) : Bool :=
  text.extract i (i + 3) == ['$', '0', 'b'] || text.extract i (i + 3) == ['$', '0', 'B']

/-- A search from the left that goes on after each match. -/
def searchPrefixes : List Char → Nat
  | [] => 0
  | c :: rest =>
    if startsEscapePrefix (c :: rest) then searchPrefixes (rest.drop 2) + 1
    else searchPrefixes rest
termination_by text => text.length
decreasing_by all_goals simp; try omega

theorem countPrefixesFrom_eq (count : Nat) (text : List Char) :
    countPrefixesFrom count text = count + countPrefixes text := by
  induction text generalizing count with
  | nil => rfl
  | cons c rest ih =>
    rw [countPrefixes, countPrefixesFrom, countPrefixesFrom, ih]
    conv_rhs => rw [ih]
    split <;> omega

theorem countPrefixes_cons (c : Char) (rest : List Char) : countPrefixes (c :: rest) =
    countPrefixes rest + if startsEscapePrefix (c :: rest) then 1 else 0 := by
  rw [countPrefixes, countPrefixesFrom, countPrefixesFrom_eq]
  split <;> omega

theorem startsEscapePrefix_iff {text : List Char} : startsEscapePrefix text = true ↔
    ∃ b rest, text = '$' :: '0' :: b :: rest ∧ (b = 'b' ∨ b = 'B') := by
  constructor
  · intro h
    unfold startsEscapePrefix at h
    split at h
    · rename_i b rest
      exact ⟨b, rest, rfl, by simpa using h⟩
    · cases h
  · rintro ⟨b, rest, rfl, rfl | rfl⟩
    · rfl
    · rfl

theorem prefixAt_zero (text : List Char) : prefixAt text 0 = startsEscapePrefix text := by
  have hsplit : text.extract 0 (0 + 3) ++ text.drop 3 = text := List.take_append_drop 3 text
  rw [Bool.eq_iff_iff, startsEscapePrefix_iff, prefixAt, Bool.or_eq_true, beq_iff_eq, beq_iff_eq]
  constructor
  · rintro (h | h)
    · refine ⟨'b', text.drop 3, ?_, .inl rfl⟩
      rw [h] at hsplit
      exact hsplit.symm
    · refine ⟨'B', text.drop 3, ?_, .inr rfl⟩
      rw [h] at hsplit
      exact hsplit.symm
  · rintro ⟨b, rest, rfl, rfl | rfl⟩
    · exact .inl rfl
    · exact .inr rfl

theorem countPrefixes_eq (text : List Char) :
    countPrefixes text = (List.range text.length).countP (prefixAt text) := by
  induction text with
  | nil => rfl
  | cons c rest ih =>
    have hnext : prefixAt (c :: rest) ∘ Nat.succ = prefixAt rest := by
      funext i
      simp only [Function.comp_apply, prefixAt, List.extract, List.drop_succ_cons]
      rw [show i.succ + 3 - i.succ = i + 3 - i by omega]
    rw [countPrefixes_cons, List.length_cons, List.range_succ_eq_map, List.countP_cons,
      List.countP_map, hnext, prefixAt_zero, ih]

theorem searchPrefixes_eq (text : List Char) : searchPrefixes text = countPrefixes text := by
  induction text using searchPrefixes.induct with
  | case1 => rw [searchPrefixes]; rfl
  | case2 c rest h ih =>
    rw [searchPrefixes, if_pos h, ih, countPrefixes_cons, if_pos h]
    obtain ⟨b, tail, heq, hb⟩ := startsEscapePrefix_iff.mp h
    obtain ⟨-, rfl⟩ := List.cons.inj heq
    have hzero : ¬ startsEscapePrefix ('0' :: b :: tail) = true := by
      simp [startsEscapePrefix_iff]
    have hletter : ¬ startsEscapePrefix (b :: tail) = true := by
      rcases hb with rfl | rfl <;> simp [startsEscapePrefix_iff]
    rw [countPrefixes_cons, if_neg hzero, countPrefixes_cons, if_neg hletter]
    rfl
  | case3 c rest h ih => rw [searchPrefixes, if_neg h, ih, countPrefixes_cons, if_neg h]; rfl

/-- A warning is there if its count is not zero. -/
theorem Scan.warnings_eq (s : Scan) : s.warnings =
    (if s.nested = 0 then [] else [Warning.nestedEscape s.nested]) ++
      (if s.spliced = 0 then [] else [Warning.splicedEscape s.spliced]) ++
        (if countPrefixes s.text = 0 then []
          else [Warning.residualEscapePrefix (countPrefixes s.text)]) := by
  simp only [warnings, List.filter_cons, List.filter_nil, Warning.occurrences, bne_iff_ne]
  split <;> split <;> split <;> simp_all

/-- The warnings account for what sanitizing deletes, in whatever order it is deleted until the
output is left. Of the escapes that go, those without a gap in the raw text are the escapes that
stand there; of the others, those with a stripped character between their ends are spliced and the
rest are nested. Prefixes are counted at each place of the output where one starts. -/
theorem warnings_account (raw : List Char) :
    (∃ erased rest, Erases raw.zipIdx erased rest ∧ letters rest = (sanitize raw).text.chars) ∧
    ∀ erased rest, Erases raw.zipIdx erased rest → letters rest = (sanitize raw).text.chars →
      let output := (sanitize raw).text.chars
      let apart := erased.filter fun w => !isContiguous raw w
      let nested := apart.countP fun w => !isSpliced raw w
      let spliced := apart.countP (isSpliced raw)
      let residual := (List.range output.length).countP (prefixAt output)
      (sanitize raw).warnings =
          (if nested = 0 then [] else [Warning.nestedEscape nested]) ++
            (if spliced = 0 then [] else [Warning.splicedEscape spliced]) ++
              (if residual = 0 then [] else [Warning.residualEscapePrefix residual]) ∧
        raw.countP isPrintable = output.length + 5 * (countEscapes raw + nested + spliced) ∧
        (∀ before w after, raw.zipIdx = before ++ w ++ after → isEscape (letters w) = true →
          w ∈ erased) ∧
        residual = searchPrefixes output := by
  have hreads := reads_scan raw
  constructor
  · obtain ⟨erased, h⟩ := exists_erases raw.zipIdx []
    refine ⟨erased, _, h, ?_⟩
    change _ = (scan raw).text
    rw [Scan.text, hreads.kept, letters, List.map_reverse, List.map_reverse, List.map_map]
    rfl
  · intro erased rest h hrest output apart nested spliced residual
    have hrest : letters rest = output := hrest
    have hclean : Clean (letters rest) := by
      rw [hrest]
      exact clean_sanitize raw
    obtain ⟨-, hperm⟩ := h.scan_eq hclean
    have hnested : (scan raw).nested = nested := by
      rw [hreads.nested, hperm.countP_eq]
      exact List.countP_filter.symm
    have hspliced : (scan raw).spliced = spliced := by
      rw [hreads.spliced, hperm.countP_eq]
      exact List.countP_filter.symm
    have hresidual : residual = countPrefixes output := (countPrefixes_eq output).symm
    have hapart : apart.length = spliced + nested := by
      simpa using apart.length_eq_countP_add_countP (isSpliced raw)
    have hall : erased.length = countEscapes raw + apart.length := by
      rw [← countP_isContiguous h hclean, ← List.countP_eq_length_filter]
      simpa using erased.length_eq_countP_add_countP (isContiguous raw)
    refine ⟨?_, ?_, ?_, ?_⟩
    · rw [hresidual, ← hnested, ← hspliced]
      exact (scan raw).warnings_eq
    · have hcount := h.countP_isPrintable hclean.printable
      rw [letters, List.zipIdx_map_fst, hrest, hall, hapart] at hcount
      rw [hcount]
      omega
    · intro before w after hsplit hw
      rw [hsplit] at h
      exact h.mem_of_isEscape hclean hw
    · rw [hresidual, searchPrefixes_eq]

/-- An escape inside another, one around a bell, and a prefix that stays. -/
theorem warnings_account_nested :
    let raw := "$0$0b41b00$0\x07b00$0b".toList
    let inner : List Placed := [('$', 2), ('0', 3), ('b', 4), ('4', 5), ('1', 6)]
    let outer : List Placed := [('$', 0), ('0', 1), ('b', 7), ('0', 8), ('0', 9)]
    let belled : List Placed := [('$', 10), ('0', 11), ('b', 13), ('0', 14), ('0', 15)]
    let rest : List Placed := [('$', 16), ('0', 17), ('b', 18)]
    Erases raw.zipIdx [inner, outer, belled] rest ∧ letters rest = (sanitize raw).text.chars ∧
      (sanitize raw).warnings = [.nestedEscape 1, .splicedEscape 1, .residualEscapePrefix 1] ∧
      raw.countP isPrintable = (sanitize raw).text.chars.length + 5 * (1 + 1 + 1) := by
  intro raw inner outer belled rest
  have hbell : Erases ([('$', 10), ('0', 11)] ++ ('\x07', 12) :: (belled.drop 2 ++ rest))
      [belled] rest :=
    .stripped _ _ _ rfl (.escape [] belled rest rfl (.done rest))
  have h : Erases raw.zipIdx [inner, outer, belled] rest :=
    .escape [('$', 0), ('0', 1)] inner _ rfl (.escape [] outer _ rfl hbell)
  have hrest : letters rest = (sanitize raw).text.chars := by decide
  obtain ⟨hwarnings, hcount, -, -⟩ := (warnings_account raw).2 [inner, outer, belled] rest h hrest
  exact ⟨h, hrest, hwarnings, hcount⟩

end TuneRelay.Mml
