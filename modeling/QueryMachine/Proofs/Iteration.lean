import QueryMachine.Proofs.PathCompleteness

/-!
# Nested iteration

A program that iterates several times in a row walks down the tree below its input.
`Place.frontier` says what such a walk comes to, depth first: the values at its depth, and those
above it that have no entries. The machine finds the same, one value for each pull, up to the first
that has no entries (`Program.descent_depthFirst`).

* `Harvest`: what comes of a list of finds, each of which changes a state and gives some items;
* `goes_walk`: the code of a walk gives what comes of its finds, by induction on the depth and, at
  each level, on the entries that are left to visit.
-/

namespace QueryMachine

/-! ## What a walk finds -/

/-- A value, with the keys that lead to it. -/
structure Place where
  path : List Value
  value : Value

namespace Place

/-- The place of an entry. -/
def entry (here : Place) (entry : Value × Value) : Place :=
  ⟨here.path ++ [entry.1], entry.2⟩

@[simp] theorem path_entry (here : Place) (entry : Value × Value) :
    (here.entry entry).path = here.path ++ [entry.1] :=
  rfl

@[simp] theorem value_entry (here : Place) (entry : Value × Value) :
    (here.entry entry).value = entry.2 :=
  rfl

/-- What a walk comes to this many levels below a place, depth first. A value on the way that has
no entries stands where they would. -/
def frontier : Nat → Place → List (Except Value Place)
  | 0, here => [.ok here]
  | depth + 1, here =>
    match here.value.keyed? with
    | none => [.error here.value]
    | some entries => entries.flatMap fun entry => frontier depth (here.entry entry)

/-- The items for what a walk finds, up to the first value that has no entries. -/
def items (answer : Place → Value) : List (Except Value Place) → List (Except Fault Value)
  | [] => []
  | .error v :: _ => [.error (.notIterable v)]
  | .ok place :: rest => .ok (answer place) :: items answer rest

end Place

/-! ## The order of a walk -/

/-- One key comes before another in the order of iteration: positions by size, names by their
characters. -/
inductive Value.KeyBefore : Value → Value → Prop where
  | position {i j : Nat} (h : i < j) : KeyBefore (ofNat i) (ofNat j)
  | name {a b : String} (h : a < b) : KeyBefore (.string a) (.string b)

/-- An iteration visits the entries by ascending key. -/
theorem Value.WellFormed.ascending_keyed? {v : Value} {entries : List (Value × Value)}
    (hform : v.WellFormed) (h : v.keyed? = some entries) :
    (entries.map (·.1)).Pairwise Value.KeyBefore := by
  cases hform with
  | array _ =>
    obtain rfl := Option.some.inj h
    rw [List.pairwise_iff_getElem]
    intro i j hi hj hlt
    simpa using Value.KeyBefore.position hlt
  | object hkeys _ =>
    obtain rfl := Option.some.inj h
    rw [List.map_map, List.pairwise_map]
    exact (List.pairwise_map.mp hkeys).imp .name
  | _ => cases h

namespace Place

variable {here : Place}

/-- The path to a place on the frontier goes through the place where the walk starts. -/
theorem exists_path_of_frontier {depth : Nat} {place : Place}
    (h : place ∈ (frontier depth here).filterMap Except.toOption) :
    ∃ rest, place.path = here.path ++ rest := by
  induction depth generalizing here with
  | zero =>
    obtain rfl := List.mem_singleton.mp h
    exact ⟨[], (List.append_nil _).symm⟩
  | succ depth ih =>
    rw [frontier] at h
    split at h
    · cases h
    · rw [List.filterMap_flatMap] at h
      obtain ⟨entry, _, hplace⟩ := List.mem_flatMap.mp h
      obtain ⟨rest, hrest⟩ := ih hplace
      refine ⟨entry.1 :: rest, ?_⟩
      rw [hrest, path_entry, List.append_assoc, List.singleton_append]

/-- A walk through a well-formed value comes to its places by ascending path. -/
theorem ascending_frontier (hform : here.value.WellFormed) (depth : Nat) :
    ((frontier depth here).filterMap Except.toOption).Pairwise fun place later =>
      List.Lex Value.KeyBefore place.path later.path := by
  induction depth generalizing here with
  | zero => exact List.pairwise_singleton _ _
  | succ depth ih =>
    rw [frontier]
    split
    · exact .nil
    · rename_i entries hkeyed
      rw [List.filterMap_flatMap, List.pairwise_flatMap]
      refine ⟨fun entry hentry => ih (hform.keyed? hkeyed entry hentry).2, ?_⟩
      refine (List.pairwise_map.mp (hform.ascending_keyed? hkeyed)).imp ?_
      -- the paths part at the keys of the two entries
      intro first second hlt place hplace later hlater
      obtain ⟨rest, hrest⟩ := exists_path_of_frontier hplace
      obtain ⟨rest', hrest'⟩ := exists_path_of_frontier hlater
      rw [hrest, hrest', path_entry, path_entry, List.append_assoc, List.append_assoc]
      exact List.Lex.append_left _ (.rel hlt) here.path

end Place

/-! ## What comes of the finds -/

section Harvest

variable {σ : Type} {next : σ → Place → σ} {gives : Place → List (Except Fault Value)}
  {finish finish' : Option Fault → σ → List (Except Fault Value) → Prop} {s : σ}
  {found later : List (Except Value Place)} {items : List (Except Fault Value)}

/-- From the state `s` these finds give these items: a place gives its own and changes the state, a
value without entries ends it all with a fault. What comes of the state at the end, `finish`
says. -/
inductive Harvest (next : σ → Place → σ) (gives : Place → List (Except Fault Value))
    (finish : Option Fault → σ → List (Except Fault Value) → Prop) :
    List (Except Value Place) → σ → List (Except Fault Value) → Prop where
  | done {s : σ} {items : List (Except Fault Value)} (h : finish none s items) :
      Harvest next gives finish [] s items
  | obstacle {v : Value} {later : List (Except Value Place)} {s : σ}
      {items : List (Except Fault Value)} (h : finish (some (.notIterable v)) s items) :
      Harvest next gives finish (.error v :: later) s items
  | place {place : Place} {later : List (Except Value Place)} {s : σ}
      {items : List (Except Fault Value)}
      (h : Harvest next gives finish later (next s place) items) :
      Harvest next gives finish (.ok place :: later) s (gives place ++ items)

/-- What comes of the first of the finds ends with what comes of those that are left. -/
theorem Harvest.of_append (h : Harvest next gives finish (found ++ later) s items)
    (hlater : ∀ {s items}, Harvest next gives finish later s items → finish' none s items)
    (hfault : ∀ {fault s items}, finish (some fault) s items → finish' (some fault) s items) :
    Harvest next gives finish' found s items := by
  induction found generalizing s items with
  | nil => exact .done (hlater h)
  | cons find found ih =>
    cases h with
    | obstacle h => exact .obstacle (hfault h)
    | place h => exact .place (ih h)

/-- Items for the places, one each. -/
theorem harvest_items (answer : Place → Value) (found : List (Except Value Place)) (s : σ) :
    Harvest (fun s _ => s) (fun place => [.ok (answer place)])
      (fun fault _ items => items = fault.toList.map .error) found s
      (Place.items answer found) := by
  induction found with
  | nil => exact .done rfl
  | cons find found ih =>
    cases find with
    | error v => exact .obstacle rfl
    | ok place => exact .place ih

end Harvest

/-! ## The path list on the way -/

/-- The path list at a place that a walk has come to: nothing, or the path from where the walk
started if one is recorded. -/
inductive Way : Bool → Place → List PlainRecord → Prop where
  | unrecorded {place : Place} : Way false place []
  | recorded {place : Place} {records : List PlainRecord}
      (h : Trail place.path place.value records) : Way true place records

namespace Way

variable {recorded : Bool} {place : Place} {records : List PlainRecord}

theorem reached (h : Way recorded place records) : Program.Reached records place.value := by
  cases h with
  | unrecorded => exact Program.reached_nil _
  | recorded h =>
    obtain ⟨r, rest, rfl, hself⟩ := h.exists_equal
    rintro _ ⟨⟩
    exact hself

theorem entered (h : Way recorded place records) {entries : List (Value × Value)}
    {entry : Value × Value} (hkeyed : place.value.keyed? = some entries)
    (hentry : entry ∈ entries) :
    Way recorded (place.entry entry) (Program.entered records entry.1 entry.2) := by
  cases h with
  | unrecorded => exact .unrecorded
  | recorded h =>
    have hfree : ¬ entry.2.HasNaN := fun hnan => h.free (hnan.of_keyed? hkeyed hentry)
    have hstep := h.step entry.1 hfree
    obtain ⟨r, rest, rfl, -⟩ := h.reached
    exact .recorded hstep

end Way

namespace Program

variable {p : Program} {pc depth : Nat} {place : Place} {recorded : Bool}
  {records : List PlainRecord} {below : List Operand} {waiting : List Spot}
  {items : List (Except Fault Value)}

/-! ## Walks -/

section

variable {σ : Type} {vars : σ → List Operand} {next : σ → Place → σ}
  {gives : Place → List (Except Fault Value)} {s : σ}

/-- Visiting entries gives what comes of the finds below them, if each of them does so. -/
theorem visits_of_harvest {entries : List (Value × Value)}
    {find : Value × Value → List (Except Value Place)} (hat : p.at? pc = some .each)
    (hentry : ∀ entry ∈ entries, ∀ {waiting s items},
      Harvest next gives (fun fault s items => p.Unwinds (vars s) fault waiting items)
        (find entry) s items →
      p.Goes (vars s) ⟨pc + 1, .value entry.2 :: below, entered records entry.1 entry.2⟩ waiting
        items)
    (h : Harvest next gives (fun fault s items => p.Unwinds (vars s) fault waiting items)
      (entries.flatMap find) s items) :
    p.Visits (vars s) pc below records waiting entries items := by
  induction entries generalizing s items with
  | nil =>
    cases h with
    | done h => exact h
  | cons entry rest ih =>
    obtain ⟨hfirst, hrest⟩ := List.forall_mem_cons.mp hentry
    rw [List.flatMap_cons] at h
    refine hfirst (h.of_append (fun hlater => ?_) (fun hfault => ?_))
    · exact unwinds_suspended hat (ih hrest hlater)
    · exact unwinds_suspended_fault hat hfault rest

/-- The code of a walk gives what comes of its finds, if the code after it does so of every place
that it may be run with. -/
theorem goes_walk {target : Nat} (vars : σ → List Operand) (place : Place)
    (htarget : pc + depth = target) (hcode : p.Has pc (List.replicate depth .each))
    (hway : Way recorded place records)
    (hplace : ∀ {s place records waiting items}, Way recorded place records →
      p.Unwinds (vars (next s place)) none waiting items →
      p.Goes (vars s) ⟨target, .value place.value :: below, records⟩ waiting
        (gives place ++ items))
    (h : Harvest next gives (fun fault s items => p.Unwinds (vars s) fault waiting items)
      (place.frontier depth) s items) :
    p.Goes (vars s) ⟨pc, .value place.value :: below, records⟩ waiting items := by
  induction depth generalizing pc place records waiting s items with
  | zero =>
    subst htarget
    cases h with
    | place h =>
      cases h with
      | done h => exact hplace hway h
  | succ depth ih =>
    obtain ⟨hat, hcode⟩ := hcode
    have hnext : pc + 1 + depth = target := by omega
    rw [Place.frontier] at h
    cases hkeyed : place.value.keyed? with
    | none =>
      rw [hkeyed] at h
      cases h with
      | obstacle h => exact goes_each_fault hat hway.reached hkeyed h
    | some entries =>
      rw [hkeyed] at h
      refine goes_each hat hway.reached hkeyed (visits_of_harvest hat ?_ h)
      intro entry hentry
      exact ih (place.entry entry) hnext hcode (hway.entered hkeyed hentry)

end

/-! ## Programs that walk -/

/-- The program that iterates so many times and answers with what it finds. -/
def descent (depth : Nat) : Program where
  name := "descent"
  code := (.scope 0 0 :: (List.replicate depth .each ++ [.ret])).toArray
  functions := #[]
  lines := #[]
  natives := .core

/-- The program that iterates so many times and answers with the paths of what it finds. -/
def descentPaths (depth : Nat) : Program where
  name := "descent_paths"
  code := (.scope 0 0 :: .pathBegin :: (List.replicate depth .each ++ [.pathEnd, .ret])).toArray
  functions := #[]
  lines := #[]
  natives := .core

/-- Iterations in a row give what is that far below the input, depth first, up to the first value
above it that has no entries; that ends them with a fault. Their paths come in the same order, as
long as there is no NaN in the input. The order is that of the keys. -/
theorem descent_depthFirst (depth : Nat) (v : Value) (idle : Machine) (settings : Settings) :
    (idle.load settings v none).GivesAll (descent depth)
        (Place.items (·.value) (Place.frontier depth ⟨[], v⟩)) ∧
      (¬ v.HasNaN → (idle.load settings v none).GivesAll (descentPaths depth)
        (Place.items (fun place => .array place.path.toArray) (Place.frontier depth ⟨[], v⟩))) ∧
      (v.WellFormed → ((Place.frontier depth ⟨[], v⟩).filterMap Except.toOption).Pairwise
        fun place later => List.Lex Value.KeyBefore place.path later.path) := by
  refine ⟨?_, fun hfree => ?_, fun hform => Place.ascending_frontier hform depth⟩
  · obtain ⟨hscope, hrest⟩ := (descent depth).has_code
    obtain ⟨hwalk, hret, -⟩ := has_append.mp hrest
    rw [List.length_replicate] at hret
    refine givesAll_of_goes hscope ?_ idle settings
    refine goes_walk (fun _ : Unit => []) ⟨[], v⟩ rfl hwalk .unrecorded ?_
      (harvest_items _ _ ())
    intro _ _ _ _ _ _ h
    exact goes_ret hret h
  · obtain ⟨hscope, hbegin, hrest⟩ := (descentPaths depth).has_code
    obtain ⟨hwalk, hend, hret, -⟩ := has_append.mp hrest
    rw [List.length_replicate] at hend hret
    refine givesAll_of_goes hscope (goes_pathBegin hbegin ?_) idle settings
    refine goes_walk (fun _ : Unit => []) ⟨[], v⟩ rfl hwalk
      (.recorded (.start hfree)) ?_ (harvest_items _ _ ())
    intro _ place records _ _ hway h
    obtain _ | ⟨htrail⟩ := hway
    exact goes_trailEnd hend htrail (goes_ret hret h)

/-- Two levels down from an object whose second entry is no container. -/
theorem descent_depthFirst_uneven :
    let v : Value := .object [("a", .array #[.int 1, .int 2]), ("b", .string "x"), ("c", .null)]
    ¬ v.HasNaN ∧ v.WellFormed ∧
      (Machine.load {} {} v none).GivesAll (descent 2)
        [.ok (.int 1), .ok (.int 2), .error (.notIterable (.string "x"))] ∧
      (Machine.load {} {} v none).GivesAll (descentPaths 2)
        [.ok (.array #[.string "a", .int 0]), .ok (.array #[.string "a", .int 1]),
          .error (.notIterable (.string "x"))] ∧
      List.Lex Value.KeyBefore [.string "a", .int 0] [.string "a", .int 1] := by
  intro v
  have hfree : ¬ v.HasNaN := Value.equal_self_iff.mp (by decide)
  have hform : v.WellFormed := by
    refine .object (by decide) fun entry hentry => ?_
    simp only [List.mem_cons, List.not_mem_nil, or_false] at hentry
    rcases hentry with rfl | rfl | rfl
    · exact .array (by simp [Value.WellFormed.int])
    · exact .string "x"
    · exact .null
  obtain ⟨hvalues, hpaths, horder⟩ := descent_depthFirst 2 v {} {}
  exact ⟨hfree, hform, hvalues, hpaths hfree,
    List.rel_of_pairwise_cons (horder hform) List.mem_cons_self⟩

end Program
end QueryMachine
