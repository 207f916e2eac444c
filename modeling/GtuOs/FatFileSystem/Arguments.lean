import GtuOs.FatFileSystem.FileSystem
import GtuOs.Lib.Tokens

/-!
# Arguments of the commands

The mode of `chmod` (`DirectoryEntry.setPermissionGivenFromCommand`) and the path (`splitPath`,
the first part of `main`).

* In a mode of three characters the second one is used twice, and the third one never
  (`setsExactly_iff`).
* The array for the names of a path has ten places and never grows: its growth step copies
  from the new array, which is then freed (`splitsExactly_iff`).
-/

namespace GtuOs.FatFileSystem

/-! ## The mode of `chmod` -/

/-- `'+'`. -/
def plus : UInt8 := 43

/-- `'-'`. -/
def minus : UInt8 := 45

/-- `'r'`. -/
def letterR : UInt8 := 114

/-- `'w'`. -/
def letterW : UInt8 := 119

namespace DirectoryEntry

/-- What is done for one character of the mode. -/
def setPermission (dir : DirectoryEntry) (isPlus : Bool) (c : UInt8) : Option DirectoryEntry :=
  if c = letterR then
    some { dir with
      attributes := if isPlus then setAttribute dir.attributes readPermission
        else removeAttribute dir.attributes readPermission }
  else if c = letterW then
    some { dir with
      attributes := if isPlus then setAttribute dir.attributes writePermission
        else removeAttribute dir.attributes writePermission }
  else none

/-- `set_permission_given_from_command`: the entry with the attributes changed, unless it
    returns -1. -/
def setPermissionGivenFromCommand (dir : DirectoryEntry) (chmodpwArg : CString) : Option DirectoryEntry :=
  let arg := chmodpwArg.chars
  if arg.length < 2 then none
  else if arg.getD 0 0 ≠ plus ∧ arg.getD 0 0 ≠ minus then none
  else do
    let isPlus : Bool := arg.getD 0 0 = plus
    let dir ← dir.setPermission isPlus (arg.getD 1 0)
    -- For a third character, the second one is used again.
    if arg.length = 3 then dir.setPermission isPlus (arg.getD 1 0)
    else if arg.length > 3 then none
    else some dir

end DirectoryEntry

/-- A sign, and one or two letters. -/
def IsMode (arg : List UInt8) : Prop :=
  ∃ sign letters, arg = sign :: letters ∧ (sign = plus ∨ sign = minus) ∧
    (letters.length = 1 ∨ letters.length = 2) ∧ ∀ c ∈ letters, c = letterR ∨ c = letterW

/-- The permission that a letter names. -/
def permissionOf (c : UInt8) : UInt8 := if c = letterR then readPermission else writePermission

/-- The permissions that the letters name. -/
def named (letters : List UInt8) : UInt8 := letters.foldr (fun c p => permissionOf c ||| p) 0

/-- Modes are accepted, and exactly the bits of the permissions named are set or cleared. -/
structure SetsExactly (dir : DirectoryEntry) (arg : List UInt8) (r : Option DirectoryEntry) : Prop where
  accepts : r.isSome ↔ IsMode arg
  effect : ∀ dir', r = some dir' → dir' =
    { dir with
      attributes := if arg.head? = some plus then setAttribute dir.attributes (named arg.tail)
        else removeAttribute dir.attributes (named arg.tail) }

/-- A third character after a sign and a letter is a letter too, and names no permission that has
    to be changed besides that of the second one. -/
def ThirdIsIdle (dir : DirectoryEntry) : List UInt8 → Prop
  | [sign, c, d] => (sign = plus ∨ sign = minus) → (c = letterR ∨ c = letterW) →
    (d = letterR ∨ d = letterW) ∧ (d = c ∨ (checkAttribute dir.attributes (permissionOf d) ↔ sign = plus))
  | _ => True

variable {dir : DirectoryEntry} {sign c d : UInt8} {letters : List UInt8}

theorem isMode_cons : IsMode (sign :: letters) ↔ (sign = plus ∨ sign = minus) ∧
    (letters.length = 1 ∨ letters.length = 2) ∧ ∀ c ∈ letters, c = letterR ∨ c = letterW := by
  constructor
  · rintro ⟨sign, letters, heq, h⟩
    obtain ⟨rfl, rfl⟩ := List.cons.inj heq
    exact h
  · exact fun h => ⟨sign, letters, rfl, h⟩

theorem forall_uint8 {P : UInt8 → Prop} (h : ∀ n : Fin 256, P (.ofFin n)) (a : UInt8) : P a := by
  have ha := h a.toFin
  rwa [UInt8.ofFin_toFin] at ha

/-- Setting a permission twice, in place of two. -/
theorem setAttribute_twice (a : UInt8) (hc : c = letterR ∨ c = letterW) (hd : d = letterR ∨ d = letterW) :
    setAttribute (setAttribute a (permissionOf c)) (permissionOf c) = setAttribute a (named [c, d]) ↔
      d = c ∨ (checkAttribute a (permissionOf d) ↔ plus = plus) := by
  revert a
  rcases hc with rfl | rfl <;> rcases hd with rfl | rfl <;> exact forall_uint8 (by decide +kernel)

theorem removeAttribute_twice (a : UInt8) (hc : c = letterR ∨ c = letterW) (hd : d = letterR ∨ d = letterW) :
    removeAttribute (removeAttribute a (permissionOf c)) (permissionOf c) =
        removeAttribute a (named [c, d]) ↔
      d = c ∨ (checkAttribute a (permissionOf d) ↔ minus = plus) := by
  revert a
  rcases hc with rfl | rfl <;> rcases hd with rfl | rfl <;> exact forall_uint8 (by decide +kernel)

theorem setPermission_eq (isPlus : Bool) (hc : c = letterR ∨ c = letterW) :
    dir.setPermission isPlus c = some
      { dir with
        attributes := if isPlus then setAttribute dir.attributes (permissionOf c)
          else removeAttribute dir.attributes (permissionOf c) } := by
  rcases hc with rfl | rfl <;> rfl

theorem setPermission_eq_none (isPlus : Bool) (hc : ¬(c = letterR ∨ c = letterW)) :
    dir.setPermission isPlus c = none := by
  rw [not_or] at hc
  rw [DirectoryEntry.setPermission, if_neg hc.1, if_neg hc.2]

theorem setsExactly_none {arg : List UInt8} (h : ¬IsMode arg) : SetsExactly dir arg none :=
  ⟨iff_of_false Bool.false_ne_true h, fun _ h => nomatch h⟩

/-- A mode of one letter, or of two, the second of which has no effect. -/
theorem setsExactly_iff_of_sign (hsign : sign = plus ∨ sign = minus) (hc : c = letterR ∨ c = letterW) :
    SetsExactly dir [sign, c, d] ((dir.setPermission (sign = plus) c).bind fun dir =>
      dir.setPermission (sign = plus) c) ↔ ThirdIsIdle dir [sign, c, d] := by
  have hmode : IsMode [sign, c, d] ↔ d = letterR ∨ d = letterW := by
    simp [isMode_cons, hsign, hc]
  have hidle : ThirdIsIdle dir [sign, c, d] ↔ (d = letterR ∨ d = letterW) ∧
      (d = c ∨ (checkAttribute dir.attributes (permissionOf d) ↔ sign = plus)) := by
    simp only [ThirdIsIdle, hsign, hc, true_imp_iff]
  rw [hidle]
  simp only [setPermission_eq _ hc, Option.bind_some]
  constructor
  · intro h
    have hd := hmode.1 (h.accepts.1 rfl)
    have heffect := congrArg DirectoryEntry.attributes (h.effect _ rfl)
    refine ⟨hd, ?_⟩
    rcases hsign with rfl | rfl
    · exact (setAttribute_twice _ hc hd).1 heffect
    · exact (removeAttribute_twice _ hc hd).1 heffect
  · rintro ⟨hd, hidle⟩
    refine ⟨iff_of_true rfl (hmode.2 hd), fun dir' hdir' => ?_⟩
    obtain rfl := Option.some.inj hdir'
    rcases hsign with rfl | rfl
    · exact congrArg (fun a => { dir with attributes := a }) ((setAttribute_twice _ hc hd).2 hidle)
    · exact congrArg (fun a => { dir with attributes := a }) ((removeAttribute_twice _ hc hd).2 hidle)

/-- After the sign. -/
theorem setPermissionGivenFromCommand_cons (hnoNul : 0 ∉ sign :: c :: letters) :
    dir.setPermissionGivenFromCommand ⟨sign :: c :: letters, hnoNul⟩ =
      if sign ≠ plus ∧ sign ≠ minus then none
      else (dir.setPermission (sign = plus) c).bind fun dir =>
        if letters.length = 1 then dir.setPermission (sign = plus) c
        else if letters.length > 1 then none
        else some dir := by
  have h₂ : ¬(sign :: c :: letters).length < 2 := by simp
  have h₃ : (sign :: c :: letters).length = 3 ↔ letters.length = 1 := by simp
  have h₄ : (sign :: c :: letters).length > 3 ↔ letters.length > 1 := by
    simp only [List.length_cons]
    omega
  simp only [DirectoryEntry.setPermissionGivenFromCommand, if_neg h₂, h₃, h₄]
  rfl

/-- `set_permission_given_from_command` does what it should, unless a third character would matter. -/
theorem setsExactly_iff (dir : DirectoryEntry) (arg : CString) :
    SetsExactly dir arg.chars (dir.setPermissionGivenFromCommand arg) ↔ ThirdIsIdle dir arg.chars := by
  obtain ⟨chars, hnoNul⟩ := arg
  match chars with
  | [] => exact iff_of_true (setsExactly_none fun ⟨_, _, h, _⟩ => nomatch h) trivial
  | [sign] => exact iff_of_true (setsExactly_none fun h => by simpa using (isMode_cons.1 h).2.1) trivial
  | sign :: c :: letters =>
    rw [setPermissionGivenFromCommand_cons]
    -- Neither a sign nor a letter is wrong: no mode, and no permission is set.
    by_cases hsign : sign = plus ∨ sign = minus
    swap
    · have hnot : ¬IsMode (sign :: c :: letters) := fun h => hsign (isMode_cons.1 h).1
      rw [if_pos (not_or.1 hsign)]
      refine iff_of_true (setsExactly_none hnot) ?_
      match letters with
      | [] | _ :: _ :: _ => trivial
      | [d] => exact fun h => absurd h hsign
    rw [if_neg (by tauto)]
    by_cases hc : c = letterR ∨ c = letterW
    swap
    · have hnot : ¬IsMode (sign :: c :: letters) := fun h => hc ((isMode_cons.1 h).2.2 c List.mem_cons_self)
      rw [setPermission_eq_none _ hc]
      refine iff_of_true (setsExactly_none hnot) ?_
      match letters with
      | [] | _ :: _ :: _ => trivial
      | [d] => exact fun _ h => absurd h hc
    match letters with
    | [] =>
      refine iff_of_true ?_ trivial
      rw [setPermission_eq _ hc]
      refine ⟨iff_of_true rfl (isMode_cons.2 ⟨hsign, .inl rfl, by simpa using hc⟩), fun dir' hdir' => ?_⟩
      obtain rfl := Option.some.inj hdir'
      have hnamed : named [c] = permissionOf c := UInt8.or_zero
      simp only [List.head?_cons, Option.some.injEq, List.tail_cons, hnamed, decide_eq_true_eq]
    | [d] => exact setsExactly_iff_of_sign hsign hc
    | d :: x :: rest =>
      refine iff_of_true ?_ trivial
      have hnot : ¬IsMode (sign :: c :: d :: x :: rest) := fun h => by
        have hlen := (isMode_cons.1 h).2.1
        simp only [List.length_cons] at hlen
        omega
      rw [setPermission_eq _ hc]
      exact setsExactly_none hnot

/-! ### A mode of two letters -/

/-- The mode `-rw`. -/
def minusRW : CString := ⟨[minus, letterR, letterW], by decide⟩

/-- The write permission is not removed. -/
theorem not_setsExactly_minusRW :
    let dir := { lastDirIndicatorEntry with attributes := readPermission ||| writePermission ||| file }
    ¬SetsExactly dir minusRW.chars (dir.setPermissionGivenFromCommand minusRW) := by
  intro dir hsets
  have heffect := congrArg DirectoryEntry.attributes (hsets.effect _ rfl)
  exact absurd heffect (by decide)

/-! ## The path -/

/-- `'/'`. -/
def slash : UInt8 := 47

/-- The places of `path_args`, with the names set so far. -/
abbrev PathArgs := List (Option (List UInt8))

/-- The growth step. The first places of `path_args` are overwritten with what is in the new
    array, which is not set. -/
def growPathArgs (pathArgs : PathArgs) (len : ℕ) : PathArgs :=
  List.replicate len none ++ pathArgs.drop len

/-- The loop over the tokens of the path. -/
def splitFrom : ℕ → PathArgs → ℕ → ℕ → List UInt8 → Except Fault (PathArgs × ℕ)
  | 0, _, _, _, _ => .error .fuel
  | fuel + 1, pathArgs, len, size, path =>
    match nextToken (· = slash) path with
    | none => .ok (pathArgs, len)
    | some (token, path) =>
      let (pathArgs, size) :=
        if len = size then (growPathArgs pathArgs len, size * 2) else (pathArgs, size)
      if len < pathArgs.length then
        splitFrom fuel (pathArgs.set len (some token)) (len + 1) size path
      else .error .index

/-- The path split in `main`: `path_args` and `len`. -/
def splitPath (path : CString) : Except Fault (PathArgs × ℕ) :=
  let pathArgs := List.replicate 10 none
  if path.chars = [slash] then .ok (pathArgs.set 0 (some [slash]), 1)
  else splitFrom (path.chars.length + 1) pathArgs 0 10 path.chars

/-- The names in a path. -/
def names (path : CString) : List (List UInt8) := tokens (· = slash) path.chars

/-- `path_args` holds exactly the names of the path. -/
def SplitsExactly (path : CString) : Prop :=
  ∃ pathArgs, splitPath path = .ok (pathArgs, (names path).length) ∧
    pathArgs.take (names path).length = (names path).map some

/-- As long as there is a place for each of the tokens, the loop sets the places in order. -/
theorem splitFrom_eq {fuel : ℕ} {pathArgs : PathArgs} {len size : ℕ} {path : List UInt8}
    (hfuel : path.length < fuel) (hlen : pathArgs.length = size)
    (hle : len + (tokens (· = slash) path).length ≤ size) :
    ∃ pathArgs', splitFrom fuel pathArgs len size path =
        .ok (pathArgs', len + (tokens (· = slash) path).length) ∧
      pathArgs'.take (len + (tokens (· = slash) path).length) =
        pathArgs.take len ++ (tokens (· = slash) path).map some := by
  induction fuel generalizing pathArgs len path with
  | zero => omega
  | succ fuel ih =>
    cases htoken : nextToken (· = slash) path with
    | none =>
      rw [nextToken_eq_none_iff] at htoken
      rw [htoken, List.length_nil, Nat.add_zero, List.map_nil, List.append_nil]
      exact ⟨pathArgs, by rw [splitFrom, nextToken_eq_none_iff.2 htoken]; rfl, rfl⟩
    | some r =>
      obtain ⟨token, rest⟩ := r
      obtain ⟨htokens, hless⟩ := tokens_of_nextToken htoken
      rw [htokens, List.length_cons] at hle ⊢
      -- The first token is set, and the others by the induction hypothesis.
      obtain ⟨pathArgs', heq, htake⟩ := @ih (pathArgs.set len (some token)) (len + 1)
        rest (by omega) (by rw [List.length_set, hlen]) (by omega)
      have hadd : len + ((tokens (· = slash) rest).length + 1) =
          len + 1 + (tokens (· = slash) rest).length := by omega
      refine ⟨pathArgs', ?_, ?_⟩
      · rw [hadd, ← heq, splitFrom, htoken]
        dsimp only
        rw [if_neg (show len ≠ size by omega)]
        exact if_pos (show len < pathArgs.length by omega)
      · rw [hadd, htake, List.take_succ_eq_append_getElem (by rw [List.length_set]; omega),
          List.take_set_of_le le_rfl, List.getElem_set_self, List.append_assoc]
        rfl

/-- With more tokens than places, the place after the last one is written. -/
theorem splitFrom_eq_error {fuel : ℕ} {pathArgs : PathArgs} {len size : ℕ} {path : List UInt8}
    (hfuel : path.length < fuel) (hlen : pathArgs.length = size) (hle : len ≤ size)
    (hlt : size < len + (tokens (· = slash) path).length) :
    splitFrom fuel pathArgs len size path = .error .index := by
  induction fuel generalizing pathArgs len path with
  | zero => omega
  | succ fuel ih =>
    cases htoken : nextToken (· = slash) path with
    | none =>
      rw [nextToken_eq_none_iff] at htoken
      rw [htoken, List.length_nil] at hlt
      omega
    | some r =>
      obtain ⟨token, rest⟩ := r
      obtain ⟨htokens, hless⟩ := tokens_of_nextToken htoken
      rw [htokens, List.length_cons] at hlt
      rw [splitFrom, htoken]
      dsimp only
      rcases Nat.eq_or_lt_of_le hle with rfl | hlt'
      -- The array has not become longer.
      · have hgrow : (growPathArgs pathArgs len).length = len := by
          rw [growPathArgs, List.length_append, List.length_replicate, List.length_drop]
          omega
        rw [if_pos rfl]
        exact if_neg (by rw [hgrow]; exact lt_irrefl _)
      · rw [if_neg hlt'.ne]
        exact (if_pos (hlt'.trans_eq hlen.symm)).trans
          (ih (by omega) (by rw [List.length_set, hlen]) hlt' (by omega))

/-- Paths are split exactly if they have at most ten names. -/
theorem splitsExactly_iff (path : CString) (h : path.chars ≠ [slash]) :
    SplitsExactly path ↔ (names path).length ≤ 10 := by
  rw [SplitsExactly, splitPath, if_neg h]
  constructor
  · rintro ⟨pathArgs, heq, -⟩
    by_contra hlt
    rw [splitFrom_eq_error (Nat.lt_succ_self _) (List.length_replicate ..) (Nat.zero_le _)
      (by rw [Nat.zero_add]; exact Nat.not_le.1 hlt)] at heq
    nomatch heq
  · intro hle
    have hsplit := @splitFrom_eq _ (List.replicate 10 none) 0 _ path.chars
      (Nat.lt_succ_self _) (List.length_replicate ..) (by rw [Nat.zero_add]; exact hle)
    rw [Nat.zero_add, List.take_zero, List.nil_append] at hsplit
    exact hsplit

/-- The path `/a/b`. -/
theorem splitsExactly_two : SplitsExactly ⟨[slash, 97, slash, 98], by decide⟩ :=
  (splitsExactly_iff _ (by decide)).2 (by decide)

/-- The eleventh name has no place. -/
theorem not_splitsExactly_eleven :
    ¬SplitsExactly ⟨(List.replicate 11 [slash, 97]).flatten, by decide⟩ := by
  rintro ⟨pathArgs, heq, -⟩
  have hfault : splitPath ⟨(List.replicate 11 [slash, 97]).flatten, by decide⟩ = .error .index := by
    decide
  rw [hfault] at heq
  nomatch heq

end GtuOs.FatFileSystem
