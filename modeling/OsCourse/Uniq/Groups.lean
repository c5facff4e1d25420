import OsCourse.Lib.Runs
import OsCourse.Uniq.Lines

/-! # Groups of equal lines

With `string_compare` answering whether two lines are equal, `uniq` prints one
line for each run of equal lines. In duplicate mode the flag is also reset by a
line of the same run, so a run of many lines is printed several times.
-/

namespace OsCourse.Uniq

open CBuffer MachineInt Runs

/-- What two lines are compared by: their bytes, up to case with `-i`. -/
def key (ignore : Bool) (line : Bytes) : Bytes := if ignore then line.map upper else line

/-- The relation `string_compare` is meant to compute. -/
def same (ignore : Bool) (s t : Bytes) : Bool := key ignore s = key ignore t

/-- The maximal groups of adjacent equal lines of a text. -/
def groups (ignore : Bool) (file : Bytes) : List (List Bytes) :=
  (lines file).splitBy (same ignore)

theorem key_append (ignore : Bool) (s t : Bytes) :
    key ignore (s ++ t) = key ignore s ++ key ignore t := by
  cases ignore <;> simp [key]

theorem same_append_right (ignore : Bool) (s t u : Bytes) :
    same ignore (s ++ u) (t ++ u) = same ignore s t := by
  simp [same, key_append]

theorem same_congr {ignore : Bool} {s t : Bytes} (h : key ignore s = key ignore t) (u : Bytes) :
    same ignore s u = same ignore t u := by
  simp [same, h]

/-! ## Counting -/

/-- The loop adds up the run that is open and starts the next one with 1. -/
theorem counted_eq {ignore : Bool} {rest : List Bytes} (calls : Nat) {dupeCount : Int}
    {last previous : Bytes} (hprevious : key ignore previous = key ignore last)
    (hcount : 1 ≤ dupeCount) (hfew : dupeCount + rest.length ≤ intMax) {run : List Bytes}
    {runs : List (List Bytes)}
    (hsplit : (previous :: rest).splitBy (same ignore) = (previous :: run) :: runs) :
    counted (fun _ => same ignore) calls dupeCount last rest =
      (dupeCount + run.length, last) ::
        runs.map fun run => ((run.length : Int), run.headD []) := by
  induction rest generalizing calls dupeCount last previous run runs with
  | nil =>
      obtain ⟨hrun, rfl⟩ : run = [] ∧ runs = [] := by
        simpa [List.splitBy, List.splitBy.loop] using hsplit.symm
      simp [counted, hrun]
  | cons line rest ih =>
      obtain ⟨next, others, hnext⟩ := exists_splitBy_cons (same ignore) line rest
      rw [List.length_cons, Nat.cast_add, Nat.cast_one] at hfew
      rw [counted, same_append_right]
      cases hsame : same ignore last line with
      | true =>
          have hlink : same ignore previous line = true := by
            rw [same_congr hprevious, hsame]
          rw [splitBy_cons_of_rel hlink hnext] at hsplit
          obtain ⟨hrun, rfl⟩ := List.cons.inj hsplit
          obtain ⟨-, rfl⟩ := List.cons.inj hrun
          have hwrap : wrap (dupeCount + 1) = dupeCount + 1 :=
            wrap_of_inRange (inRange_of_nonneg (by omega) (by omega) hfew)
          have hkey : key ignore line = key ignore last := by
            simpa [same, eq_comm] using hsame
          rw [if_pos rfl, hwrap, ih _ hkey (by omega) (by omega) hnext, List.length_cons,
            Nat.cast_add, Nat.cast_one]
          congr 2
          omega
      | false =>
          have hcut : same ignore previous line = false := by
            rw [same_congr hprevious, hsame]
          rw [splitBy_cons_of_not hcut, hnext] at hsplit
          obtain ⟨hrun, rfl⟩ := List.cons.inj hsplit
          obtain ⟨-, rfl⟩ := List.cons.inj hrun
          rw [if_neg Bool.false_ne_true, ih _ rfl le_rfl (by omega) hnext]
          simp [add_comm]

theorem exists_groups {file : Bytes} (hne : file ≠ []) (ignore : Bool) :
    ∃ run runs, groups ignore file = (firstLine file :: run) :: runs := by
  rw [groups, lines_eq_cons hne]
  exact exists_splitBy_cons _ _ _

/-- Without `-d`, `uniq` prints the first line of every group, with `-c` after
the size of the group; the sizes add up to the number of lines. -/
theorem uniq_prints_groups (count ignore : Bool) (file : Bytes) (hne : file ≠ [])
    (hnul : (0 : UInt8) ∉ file) (hlen : ∀ line ∈ lines file, line.length ≤ 1022)
    (hfew : (lines file).length < 2 ^ 31) :
    uniq (fun _ => same ignore) count false file =
        some ((groups ignore file).flatMap fun group =>
          render count group.length (group.headD [])) ∧
      ((groups ignore file).map List.length).sum = (lines file).length := by
  refine ⟨?_, sum_length_splitBy _ _⟩
  have hfits : ∀ line ∈ lines file, Fits line :=
    fun line hline => ⟨nulFree_of_mem_lines hnul line hline, hlen line hline⟩
  obtain ⟨run, runs, hgroups⟩ := exists_groups hne ignore
  have hbound : 1 + ((lines (afterLine file)).length : Int) ≤ intMax := by
    rw [lines_eq_cons hne, List.length_cons] at hfew
    unfold intMax
    omega
  have hsplit : (firstLine file :: lines (afterLine file)).splitBy (same ignore) =
      (firstLine file :: run) :: runs := by
    rw [← lines_eq_cons hne]
    exact hgroups
  rw [uniq_nonDuplicate_lines _ count hne hfits, counted_eq 0 rfl le_rfl hbound hsplit, hgroups]
  simp [List.flatMap_map, add_comm]

/-- `a`, `A` and `b`, the last without a newline. -/
theorem uniq_prints_groups_mixedCase :
    uniq (fun _ => same true) true false [97, 10, 65, 10, 98] =
        some ((groups true [97, 10, 65, 10, 98]).flatMap
          fun group => render true group.length (group.headD [])) ∧
      ((groups true [97, 10, 65, 10, 98]).map List.length).sum =
        (lines [97, 10, 65, 10, 98]).length :=
  uniq_prints_groups true true [97, 10, 65, 10, 98] (by decide) (by decide) (by decide) (by decide)

/-! ## Duplicates -/

/-- The lines of a run at which the flag is set: every other one, if another
line follows it. -/
def everyOther : List Bytes → List Bytes
  | line :: _ :: rest => line :: everyOther rest
  | _ => []

/-- The flag is set by the second line of a run, reset by the third, and so on. -/
theorem duplicates_eq (ignore : Bool) (calls : Nat) (last : Bytes) (rest : List Bytes) :
    duplicates (fun _ => same ignore) calls false last rest =
      ((last :: rest).splitBy (same ignore)).flatMap everyOther := by
  induction hlength : rest.length using Nat.strong_induction_on generalizing calls last rest with
  | _ length ih =>
      cases rest with
      | nil => rfl
      | cons line rest =>
          rw [duplicates, same_append_right, Bool.not_false, Bool.and_true]
          cases hsame : same ignore last line with
          | false =>
              rw [if_neg Bool.false_ne_true, splitBy_cons_of_not hsame,
                ih rest.length (by simp [← hlength]) _ _ _ rfl]
              rfl
          | true =>
              rw [if_pos rfl]
              cases rest with
              | nil =>
                  have hpair : [last, line].splitBy (same ignore) = [[last, line]] :=
                    splitBy_cons_of_rel hsame rfl
                  rw [hpair]
                  rfl
              | cons third rest =>
                  -- the flag makes the third line the next one to be compared with
                  have hshorter : rest.length < length := by
                    rw [← hlength, List.length_cons, List.length_cons]
                    omega
                  rw [duplicates, Bool.not_true, Bool.and_false, if_neg Bool.false_ne_true,
                    ih rest.length hshorter _ _ _ rfl]
                  obtain ⟨run, runs, hrest⟩ := exists_splitBy_cons (same ignore) third rest
                  cases hnext : same ignore line third with
                  | true =>
                      rw [splitBy_cons_of_rel hsame (splitBy_cons_of_rel hnext hrest), hrest]
                      rfl
                  | false =>
                      rw [splitBy_cons_of_rel hsame (splitBy_cons_of_not hnext rest)]
                      rfl

/-- The lines `uniq -d` should print for a group. -/
def firstOfMany (group : List Bytes) : List Bytes :=
  if 2 ≤ group.length then [group.headD []] else []

theorem everyOther_eq_firstOfMany_iff (group : List Bytes) :
    everyOther group = firstOfMany group ↔ group.length < 4 := by
  match group with
  | [] => simp [everyOther, firstOfMany]
  | [_] => simp [everyOther, firstOfMany]
  | [_, _] => simp [everyOther, firstOfMany]
  | [_, _, _] => simp [everyOther, firstOfMany]
  | _ :: _ :: _ :: _ :: _ => simp [everyOther, firstOfMany]

theorem firstOfMany_prefix (group : List Bytes) : firstOfMany group <+: everyOther group := by
  match group with
  | [] => exact List.prefix_rfl
  | [_] => exact List.prefix_rfl
  | line :: _ :: rest => exact ⟨everyOther rest, rfl⟩

/-- The text of a list of lines. -/
def unlines (lines : List Bytes) : Bytes := lines.flatMap (· ++ [newline])

theorem unlines_append (first second : List Bytes) :
    unlines (first ++ second) = unlines first ++ unlines second :=
  List.flatMap_append

theorem eq_nil_of_unlines {lines : List Bytes} (h : unlines lines = []) : lines = [] := by
  cases lines with
  | nil => rfl
  | cons line rest => simp [unlines] at h

theorem firstOfMany_flatMap (groups : List (List Bytes)) :
    (groups.filter fun group => 2 ≤ group.length).flatMap
        (fun group => group.headD [] ++ [newline]) =
      unlines (groups.flatMap firstOfMany) := by
  induction groups with
  | nil => rfl
  | cons group groups ih =>
      rw [List.flatMap_cons, unlines_append, ← ih, List.filter_cons, firstOfMany]
      split
      next hmany =>
        rw [if_pos (by simpa using hmany), List.flatMap_cons]
        simp [unlines]
      next hfew =>
        rw [if_neg (by simpa using hfew)]
        rfl

/-- Longer runs are printed more often, and nothing makes up for it. -/
theorem unlines_everyOther_iff (groups : List (List Bytes)) :
    unlines (groups.flatMap everyOther) = unlines (groups.flatMap firstOfMany) ↔
      ∀ group ∈ groups, group.length < 4 := by
  have hprefix : ∀ group, ∃ more,
      unlines (everyOther group) = unlines (firstOfMany group) ++ unlines more ∧
        (more = [] ↔ group.length < 4) := by
    intro group
    obtain ⟨more, hmore⟩ := firstOfMany_prefix group
    refine ⟨more, by rw [← hmore, unlines_append], ?_⟩
    rw [← everyOther_eq_firstOfMany_iff, ← hmore]
    simp
  have hlength : ∀ groups : List (List Bytes),
      (unlines (groups.flatMap firstOfMany)).length ≤
        (unlines (groups.flatMap everyOther)).length := by
    intro groups
    induction groups with
    | nil => exact le_rfl
    | cons group groups ih =>
        obtain ⟨more, hmore, -⟩ := hprefix group
        simp only [List.flatMap_cons, unlines_append, hmore, List.length_append]
        omega
  induction groups with
  | nil => simp
  | cons group groups ih =>
      obtain ⟨more, hmore, hiff⟩ := hprefix group
      rw [List.forall_mem_cons, List.flatMap_cons, List.flatMap_cons, unlines_append,
        unlines_append, hmore, List.append_assoc, List.append_cancel_left_eq]
      refine Iff.trans ?_ (and_congr hiff ih)
      constructor
      · intro heq
        have hlen := congrArg List.length heq
        have hle := hlength groups
        rw [List.length_append] at hlen
        have hnil : unlines more = [] := List.length_eq_zero_iff.mp (by omega)
        rw [hnil, List.nil_append] at heq
        exact ⟨eq_nil_of_unlines hnil, heq⟩
      · rintro ⟨rfl, heq⟩
        exact heq

/-- `uniq -d` prints the first line of every group of two lines or more, and
nothing else, exactly when no group has more than three lines. -/
theorem uniq_prints_duplicates_iff (count ignore : Bool) (file : Bytes) (hne : file ≠ [])
    (hnul : (0 : UInt8) ∉ file) (hlen : ∀ line ∈ lines file, line.length ≤ 1022) :
    uniq (fun _ => same ignore) count true file =
        some (((groups ignore file).filter fun group => 2 ≤ group.length).flatMap
          fun group => group.headD [] ++ [newline]) ↔
      ∀ group ∈ groups ignore file, group.length < 4 := by
  have hfits : ∀ line ∈ lines file, Fits line :=
    fun line hline => ⟨nulFree_of_mem_lines hnul line hline, hlen line hline⟩
  rw [uniq_duplicate_lines _ count hne hfits, duplicates_eq, ← lines_eq_cons hne, ← groups,
    firstOfMany_flatMap, Option.some.injEq]
  exact unlines_everyOther_iff _

theorem uniq_prints_duplicates_iff_threeLines :
    uniq (fun _ => same false) false true [97, 10, 97, 10, 97, 10] =
        some (((groups false [97, 10, 97, 10, 97, 10]).filter fun group => 2 ≤ group.length).flatMap
          fun group => group.headD [] ++ [newline]) :=
  (uniq_prints_duplicates_iff false false [97, 10, 97, 10, 97, 10] (by decide) (by decide)
    (by decide)).mpr (by decide)

/-- Four equal lines are printed twice. -/
theorem uniq_prints_fourLines_twice :
    uniq (fun _ => same false) false true [97, 10, 97, 10, 97, 10, 97, 10] =
        some [97, 10, 97, 10] ∧
      uniq (fun _ => same false) false true [97, 10, 97, 10, 97, 10, 97, 10] ≠
        some (((groups false [97, 10, 97, 10, 97, 10, 97, 10]).filter
          fun group => 2 ≤ group.length).flatMap fun group => group.headD [] ++ [newline]) := by
  have hprinted : uniq (fun _ => same false) false true [97, 10, 97, 10, 97, 10, 97, 10] =
      some [97, 10, 97, 10] := by
    have hfits : ∀ line ∈ lines [97, 10, 97, 10, 97, 10, 97, 10], Fits line := by
      intro line hline
      obtain rfl : line = [97] := by simpa [lines, newline] using hline
      exact ⟨by decide, by decide⟩
    rw [uniq_duplicate_lines _ _ (by decide) hfits]
    decide
  refine ⟨hprinted, ?_⟩
  rw [hprinted]
  decide

/-! ## Running it twice -/

/-- The lines `uniq` keeps: the first of each run. -/
def representatives (ignore : Bool) (last : Bytes) : List Bytes → List Bytes
  | [] => [last]
  | line :: rest =>
      if same ignore last line then representatives ignore last rest
      else last :: representatives ignore line rest

theorem map_snd_counted (ignore : Bool) (calls : Nat) (dupeCount : Int) (last : Bytes)
    (rest : List Bytes) :
    (counted (fun _ => same ignore) calls dupeCount last rest).map Prod.snd =
      representatives ignore last rest := by
  induction rest generalizing calls dupeCount last with
  | nil => rfl
  | cons line rest ih =>
      rw [counted, same_append_right, representatives]
      split
      · exact ih _ _ _
      · rw [List.map_cons, ih]

/-- Neighbours among the lines kept are not equal, so all of them are kept again. -/
theorem exists_representatives (ignore : Bool) (last : Bytes) (rest : List Bytes) :
    ∃ tail, representatives ignore last rest = last :: tail ∧
      representatives ignore last tail = last :: tail := by
  induction rest generalizing last with
  | nil => exact ⟨[], rfl, rfl⟩
  | cons line rest ih =>
      rw [representatives]
      split
      · exact ih last
      next hnew =>
        obtain ⟨tail, hkept, hagain⟩ := ih line
        refine ⟨line :: tail, by rw [hkept], ?_⟩
        rw [representatives, if_neg hnew, hagain]

theorem representatives_subset (ignore : Bool) (last : Bytes) (rest : List Bytes) :
    representatives ignore last rest ⊆ last :: rest := by
  induction rest generalizing last with
  | nil => exact List.Subset.refl _
  | cons line rest ih =>
      rw [representatives]
      split
      · exact List.Subset.trans (ih last)
          (List.cons_subset_cons last (List.subset_cons_self line rest))
      · exact List.cons_subset_cons last (ih line)

theorem newline_notMem_of_mem_lines {text : Bytes} : ∀ line ∈ lines text, newline ∉ line := by
  induction hlines : lines text generalizing text with
  | nil => simp
  | cons first rest ih =>
      obtain ⟨-, rfl, hrest⟩ := lines_cons_cases hlines
      intro line hline
      rcases List.mem_cons.mp hline with rfl | hline
      · intro hmem
        have hkept := List.all_eq_true.mp List.all_takeWhile newline hmem
        simp at hkept
      · exact ih hrest line hline

theorem lines_line_append {line : Bytes} (h : newline ∉ line) (text : Bytes) :
    lines (line ++ newline :: text) = line :: lines text := by
  induction line with
  | nil => rw [List.nil_append, lines, if_pos rfl]
  | cons c line ih =>
      obtain ⟨hc, hline⟩ := not_or.mp (List.mem_cons.not.mp h)
      rw [List.cons_append, lines, if_neg (Ne.symm hc), ih hline]

/-- Lines that are printed are read back. -/
theorem lines_unlines {kept : List Bytes} (h : ∀ line ∈ kept, newline ∉ line) :
    lines (unlines kept) = kept := by
  induction kept with
  | nil => rfl
  | cons line kept ih =>
      obtain ⟨hline, hkept⟩ := List.forall_mem_cons.mp h
      have htext : unlines (line :: kept) = line ++ newline :: unlines kept := by
        simp [unlines]
      rw [htext, lines_line_append hline, ih hkept]

/-- What `uniq` prints with neither `-c` nor `-d`. -/
theorem uniq_prints_representatives (ignore : Bool) {file first : Bytes} {rest : List Bytes}
    (hlines : lines file = first :: rest) (hfits : ∀ line ∈ lines file, Fits line) :
    uniq (fun _ => same ignore) false false file =
      some (unlines (representatives ignore first rest)) := by
  obtain ⟨hne, rfl, rfl⟩ := lines_cons_cases hlines
  rw [uniq_nonDuplicate_lines _ false hne hfits, ← map_snd_counted ignore 0 1, unlines,
    List.flatMap_map]
  rfl

/-- Of its own output `uniq` prints every byte again. -/
theorem uniq_idempotent (ignore : Bool) (file : Bytes) (hne : file ≠ [])
    (hnul : (0 : UInt8) ∉ file) (hlen : ∀ line ∈ lines file, line.length ≤ 1022) :
    ∃ out, uniq (fun _ => same ignore) false false file = some out ∧
      uniq (fun _ => same ignore) false false out = some out := by
  have hfits : ∀ line ∈ lines file, Fits line :=
    fun line hline => ⟨nulFree_of_mem_lines hnul line hline, hlen line hline⟩
  have hlines := lines_eq_cons hne
  obtain ⟨tail, hkept, hagain⟩ :=
    exists_representatives ignore (firstLine file) (lines (afterLine file))
  have hsubset : ∀ line ∈ firstLine file :: tail, line ∈ lines file := by
    intro line hline
    rw [hlines]
    exact representatives_subset ignore _ _ (hkept ▸ hline)
  have hout : lines (unlines (firstLine file :: tail)) = firstLine file :: tail :=
    lines_unlines fun line hline => newline_notMem_of_mem_lines line (hsubset line hline)
  refine ⟨unlines (firstLine file :: tail), ?_, ?_⟩
  · rw [uniq_prints_representatives ignore hlines hfits, hkept]
  · rw [uniq_prints_representatives ignore hout fun line hline =>
      hfits line (hsubset line (hout ▸ hline)), hagain]

/-- `a`, `A`, an empty line and `b` without a newline. -/
theorem uniq_idempotent_mixedCase :
    ∃ out, uniq (fun _ => same true) false false [97, 10, 65, 10, 10, 98] = some out ∧
      uniq (fun _ => same true) false false out = some out :=
  uniq_idempotent true [97, 10, 65, 10, 10, 98] (by decide) (by decide) (by decide)

end OsCourse.Uniq
