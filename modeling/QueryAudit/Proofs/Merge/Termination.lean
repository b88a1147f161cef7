import QueryAudit.Proofs.Merge.Opening

/-!
# The search ends

A comparison of a set with a fragment, or of two fragments, breaks into others only if it is new to
the ledger, and there are only so many of them in a document. Between two such comparisons only
comparisons of fields are nested, and those go down the selection sets. So the depth to which the
search nests its tasks is bounded, and the bound that it is given suffices.
-/

namespace QueryAudit.Merge

/-! ## Fewer selection sets below -/

mutual

theorem setCountAll_lt_of_mem_itemsOf {schema : Schema} {parent : Option TypeDefinition}
    {address : Address} (selection : Selection) {entry : Entry}
    (h : Item.entry entry ∈ itemsOf schema parent address selection) :
    setCountAll entry.selections < setCount selection := by
  cases selection with
  | field chosen inner =>
      simp only [itemsOf, List.mem_singleton, Item.entry.injEq] at h
      subst h
      simp only [setCount]
      omega
  | spread chosen => simp [itemsOf] at h
  | inline head inner =>
      rw [itemsOf] at h
      have hinner := setCountAll_lt_of_mem_itemsOfAll inner h
      simp only [setCount]
      omega

/-- Sub-selections hold fewer selection sets than the set that they are in. -/
theorem setCountAll_lt_of_mem_itemsOfAll {schema : Schema} {parent : Option TypeDefinition}
    {address : Address} {number : Nat} (selections : List Selection) {entry : Entry}
    (h : Item.entry entry ∈ itemsOfAll schema parent address number selections) :
    setCountAll entry.selections < setCountAll selections := by
  cases selections with
  | nil => cases h
  | cons selection rest =>
      simp only [setCountAll]
      rcases List.mem_append.mp h with hhead | hrest
      · have hlt := setCountAll_lt_of_mem_itemsOf selection hhead
        omega
      · have hlt := setCountAll_lt_of_mem_itemsOfAll rest hrest
        omega

end

/-! ## Comparisons that a ledger has not made -/

/-- All comparisons of a set with a fragment that there can be. -/
def setKeys (document : Document) : List (Address × Name × Bool) :=
  document.addresses.flatMap fun address =>
    document.spreadNames.eraseDups.flatMap fun name =>
      [(address, name, false), (address, name, true)]

/-- All comparisons of two fragments that there can be. -/
def pairKeys (document : Document) : List ((Name × Name) × Bool) :=
  document.spreadNames.eraseDups.flatMap fun a =>
    document.spreadNames.eraseDups.flatMap fun b => [((a, b), false), ((a, b), true)]

def unseen {α : Type} [DecidableEq α] (keys seen : List α) : Nat :=
  keys.countP fun key => key ∉ seen

def Ledger.unused (document : Document) (ledger : Ledger) : Nat :=
  unseen (setKeys document) ledger.setsWithFragments +
    unseen (pairKeys document) ledger.fragmentPairs

theorem Ledger.unused_le (document : Document) (ledger : Ledger) :
    ledger.unused document ≤
      2 * document.setCount * document.spreadNames.eraseDups.length +
        2 * document.spreadNames.eraseDups.length * document.spreadNames.eraseDups.length := by
  have hsets : (setKeys document).length =
      document.setCount * (document.spreadNames.eraseDups.length * 2) := by
    simp only [setKeys, List.length_flatMap, List.length_cons, List.length_nil, List.map_const',
      List.sum_replicate_nat, document.length_addresses]
  have hpairs : (pairKeys document).length =
      document.spreadNames.eraseDups.length * (document.spreadNames.eraseDups.length * 2) := by
    simp only [pairKeys, List.length_flatMap, List.length_cons, List.length_nil, List.map_const',
      List.sum_replicate_nat]
  calc ledger.unused document ≤ (setKeys document).length + (pairKeys document).length :=
        Nat.add_le_add List.countP_le_length List.countP_le_length
    _ = _ := by
        rw [hsets, hpairs]
        ac_rfl

theorem mem_setKeys {document : Document} {address : Address} {name : Name}
    (haddress : address ∈ document.addresses) (hname : name ∈ document.spreadNames)
    (exclusive : Bool) : (address, name, exclusive) ∈ setKeys document := by
  refine List.mem_flatMap.mpr ⟨address, haddress, List.mem_flatMap.mpr ⟨name, ?_, ?_⟩⟩
  · exact List.mem_eraseDups.mpr hname
  · cases exclusive <;> simp

theorem mem_pairKeys {document : Document} {a b : Name} (ha : a ∈ document.spreadNames)
    (hb : b ∈ document.spreadNames) (exclusive : Bool) :
    (Ledger.pairKey a b, exclusive) ∈ pairKeys document := by
  have hordered : ∀ first second : Name, first ∈ document.spreadNames →
      second ∈ document.spreadNames → ((first, second), exclusive) ∈ pairKeys document := by
    intro first second hfirst hsecond
    refine List.mem_flatMap.mpr ⟨first, List.mem_eraseDups.mpr hfirst, ?_⟩
    refine List.mem_flatMap.mpr ⟨second, List.mem_eraseDups.mpr hsecond, ?_⟩
    cases exclusive <;> simp
  unfold Ledger.pairKey
  split
  · exact hordered a b ha hb
  · exact hordered b a hb ha

theorem unseen_le {α : Type} [DecidableEq α] (keys : List α) {seen later : List α}
    (h : ∀ key ∈ seen, key ∈ later) : unseen keys later ≤ unseen keys seen := by
  refine List.countP_mono_left fun key _ hlater => ?_
  simp only [decide_eq_true_eq] at hlater ⊢
  exact fun hseen => hlater (h key hseen)

theorem unseen_lt {α : Type} [DecidableEq α] {keys seen later : List α}
    (h : ∀ key ∈ seen, key ∈ later) {new : α} (hnew : new ∈ keys) (hseen : new ∉ seen)
    (hlater : new ∈ later) : unseen keys later < unseen keys seen := by
  induction keys with
  | nil => cases hnew
  | cons key rest ih =>
      have hrest := unseen_le rest h
      unfold unseen at ih hrest ⊢
      rw [List.countP_cons, List.countP_cons]
      by_cases hkey : new = key
      · subst hkey
        simp only [hseen, hlater, not_true, not_false_eq_true, decide_true, decide_false, if_true,
          Bool.false_eq_true, if_false]
        omega
      · have hlt := ih ((List.mem_cons.mp hnew).resolve_left hkey)
        by_cases hin : key ∈ seen
        · simp only [hin, h key hin, not_true, decide_false, Bool.false_eq_true, if_false]
          omega
        · simp only [hin, not_false_eq_true, decide_true, if_true]
          split <;> omega

theorem Ledger.Grows.unused_le {before after : Ledger} (h : before.Grows after)
    (document : Document) : after.unused document ≤ before.unused document :=
  Nat.add_le_add (unseen_le _ h.sets) (unseen_le _ h.pairs)

theorem Ledger.Grows.unused_lt_of_set {document : Document} {before after : Ledger}
    (h : before.Grows after) {key : Address × Name × Bool} (hkey : key ∈ setKeys document)
    (hnew : key ∉ before.setsWithFragments) (hafter : key ∈ after.setsWithFragments) :
    after.unused document < before.unused document :=
  Nat.add_lt_add_of_lt_of_le (unseen_lt h.sets hkey hnew hafter)
    (unseen_le _ h.pairs)

theorem Ledger.Grows.unused_lt_of_pair {document : Document} {before after : Ledger}
    (h : before.Grows after) {key : (Name × Name) × Bool} (hkey : key ∈ pairKeys document)
    (hnew : key ∉ before.fragmentPairs) (hafter : key ∈ after.fragmentPairs) :
    after.unused document < before.unused document :=
  Nat.add_lt_add_of_le_of_lt (unseen_le _ h.sets)
    (unseen_lt h.pairs hkey hnew hafter)

/-! ## The depth that a task needs -/

section

variable {schema : Schema} {document : Document} {sites : Sites schema document}

/-- A depth to which the search may nest tasks while it does a task. -/
def Task.depth (document : Document) (ledger : Ledger) : Task → Nat
  | .fields _ _ a _ =>
      ledger.unused document * (document.setCount + 2) + setCountAll a.selections + 2
  | .setWithFragment _ _ _ => ledger.unused document * (document.setCount + 2) + 1
  | .fragments _ _ _ => ledger.unused document * (document.setCount + 2) + 1

theorem Gathered.IsAt.stands {gathered : Gathered} {address : Address} {selections : SelectionSet}
    (h : gathered.IsAt sites address selections) :
    ∃ type, document.setAt? schema address = some (type, selections) := by
  obtain ⟨parent, hset, -⟩ := h
  exact sites.stands hset

theorem depth_lt_of_mem_tasksBetween {first second : Gathered} {here there : Address}
    {s t : SelectionSet} (hfirst : first.IsAt sites here s)
    (hsecond : second.IsAt sites there t) {exclusive : Bool} {task : Task}
    (htask : task ∈ tasksBetween exclusive first.fields second.fields) (ledger : Ledger) :
    task.depth document ledger <
      ledger.unused document * (document.setCount + 2) + setCountAll s + 2 := by
  obtain ⟨p, q, a, b, hp, hq, ha, hb, hkey, rfl⟩ := hfirst.exists_fields hsecond htask
  have hlt := setCountAll_lt_of_mem_itemsOfAll s ha
  simp only [Task.depth]
  omega

/-- The tasks that a task breaks into need less depth than it does, whatever comparisons are made
before them. -/
theorem Opens.depth_lt {ledger later : Ledger} (hledger : ledger.Genuine sites)
    {task other : Task} {opened : Opened} (hopens : Opens sites ledger task opened)
    (htask : task.Genuine sites) (hlater : opened.ledger.Grows later)
    (hother : other ∈ opened.tasks) : other.depth document later < task.depth document ledger := by
  have hgrows := hopens.grows.trans hlater
  cases hopens with
  | direct | leaf | setKnown | setAlone | pairKnown | pairMissing => cases hother
  | subfields hreason hgenuine hmatches hfirst hsecond =>
      have hunused := Nat.mul_le_mul_right (document.setCount + 2) (hgrows.unused_le document)
      simp only [tasksForSubsets, List.mem_append, List.mem_map, List.mem_flatMap] at hother
      rcases hother with ((hbetween | ⟨name, -, rfl⟩) | ⟨name, -, rfl⟩) | ⟨name, -, next, -, rfl⟩
      · refine Nat.lt_of_lt_of_le
          (depth_lt_of_mem_tasksBetween hfirst hsecond hbetween later) ?_
        simp only [Task.depth]
        omega
      all_goals
        simp only [Task.depth]
        omega
  | setWithFragment hnew hgenuine hsets hpairs hlocate hfound =>
      obtain ⟨⟨selections, hset⟩, hname⟩ := htask
      obtain ⟨type, hstands⟩ := hset.stands
      have hcount := Document.setCountAll_lt_setCount hstands
      have haddress := Document.mem_addresses_of_setAt? hstands
      have hlt := hgrows.unused_lt_of_set (mem_setKeys haddress hname _) hnew
        (hlater.sets _ (hsets ▸ List.mem_cons_self))
      have hunused := Nat.mul_le_mul_right (document.setCount + 2) hlt
      rw [Nat.succ_mul] at hunused
      rcases List.mem_append.mp hother with hbetween | hspreads
      · refine Nat.lt_of_lt_of_le (depth_lt_of_mem_tasksBetween hset hfound hbetween later) ?_
        simp only [Task.depth]
        omega
      · obtain ⟨next, -, rfl⟩ := List.mem_map.mp hspreads
        simp only [Task.depth]
        omega
  | pair hnew hgenuine hsets hpairs hlocateA hlocateB hfirst hsecond =>
      obtain ⟨type, hstands⟩ := hfirst.stands
      have hcount := Document.setCountAll_lt_setCount hstands
      have hlt := hgrows.unused_lt_of_pair (mem_pairKeys htask.1 htask.2 _)
        (hledger.not_mem_pairs hnew) (hlater.pairs _ (hpairs ▸ List.mem_cons_self))
      have hunused := Nat.mul_le_mul_right (document.setCount + 2) hlt
      rw [Nat.succ_mul] at hunused
      simp only [Opened.into, List.mem_append, List.mem_map] at hother
      rcases hother with (hbetween | ⟨next, -, rfl⟩) | ⟨next, -, rfl⟩
      · refine Nat.lt_of_lt_of_le
          (depth_lt_of_mem_tasksBetween hfirst hsecond hbetween later) ?_
        simp only [Task.depth]
        omega
      all_goals
        simp only [Task.depth]
        omega

theorem exists_doAll (hsites : sites.Closed) (depth : Nat) {tasks : List Task}
    (htasks : ∀ task ∈ tasks, task.Genuine sites) {ledger : Ledger}
    (hledger : ledger.Genuine sites)
    (hdone : ∀ task ∈ tasks, ∀ later : Ledger, later.Genuine sites → ledger.Grows later →
      ∃ result, doTask schema document depth later task = some result) :
    ∃ result, doAll (doTask schema document depth) ledger tasks = some result := by
  induction tasks generalizing ledger with
  | nil => exact ⟨_, rfl⟩
  | cons task rest ih =>
      have htask := htasks task List.mem_cons_self
      obtain ⟨⟨middle, found⟩, hfirst⟩ :=
        hdone task List.mem_cons_self ledger hledger (.refl ledger)
      obtain ⟨hmiddle, hgrows⟩ := doTask_keeps hsites hledger htask hfirst
      obtain ⟨⟨after, others⟩, hrest⟩ := ih
        (fun other hother => htasks other (List.mem_cons_of_mem _ hother)) hmiddle
        fun other hother later hlater hgrows' =>
          hdone other (List.mem_cons_of_mem _ hother) later hlater (hgrows.trans hgrows')
      exact ⟨(after, found ++ others), by simp [doAll, hfirst, hrest]⟩

/-- A task is done to its end if the depth allowed is at least the one that it needs. -/
theorem exists_doTask (hsites : sites.Closed) {depth : Nat} {ledger : Ledger}
    {task : Task} (hledger : ledger.Genuine sites) (htask : task.Genuine sites)
    (hdepth : task.depth document ledger ≤ depth) :
    ∃ result, doTask schema document depth ledger task = some result := by
  induction depth generalizing ledger task with
  | zero => cases task <;> simp [Task.depth] at hdepth
  | succ depth ih =>
      have hopens := opens_openTask hledger htask
      have htasks := hopens.genuine_tasks hsites htask
      obtain ⟨⟨after, found⟩, hall⟩ := exists_doAll hsites depth htasks
        (hopens.genuine_ledger hledger) fun other hother later hlater hgrows => by
          have hlt := hopens.depth_lt hledger htask hgrows hother
          exact ih hlater (htasks other hother) (by omega)
      exact ⟨_, by simp [doTask, hall]; rfl⟩

/-- No task needs more depth than the search is given, nor as much if it is not the first. -/
theorem Task.Genuine.depth_lt_depthBound {task : Task} (htask : task.Genuine sites)
    (ledger : Ledger) :
    task.depth document ledger < depthBound document := by
  have hbound : depthBound document =
      (2 * document.setCount * document.spreadNames.eraseDups.length +
        2 * document.spreadNames.eraseDups.length * document.spreadNames.eraseDups.length + 1) *
          (document.setCount + 2) + 1 := rfl
  have hunused := Nat.mul_le_mul_right (document.setCount + 2) (ledger.unused_le document)
  rw [Nat.succ_mul] at hbound
  cases task with
  | fields key exclusive a b =>
      obtain ⟨⟨parent, hset⟩, -⟩ := sites.below htask.1
      obtain ⟨type, hstands⟩ := sites.stands hset
      have hcount := Document.setCountAll_lt_setCount hstands
      simp only [Task.depth]
      omega
  | setWithFragment exclusive set name =>
      simp only [Task.depth]
      omega
  | fragments exclusive a b =>
      simp only [Task.depth]
      omega

/-- Tasks are done to their ends one after the other, whatever was done before them. -/
theorem exists_doAll_of_genuine (hsites : sites.Closed) {depth : Nat}
    (hdepth : depthBound document ≤ depth + 1) {tasks : List Task}
    (htasks : ∀ task ∈ tasks, task.Genuine sites) {ledger : Ledger}
    (hledger : ledger.Genuine sites) :
    ∃ result, doAll (doTask schema document depth) ledger tasks = some result := by
  refine exists_doAll hsites depth htasks hledger fun task htask later hlater _ => ?_
  have hlt := (htasks task htask).depth_lt_depthBound later
  exact exists_doTask hsites hlater (htasks task htask) (by omega)

/-- The search through a set of a document ends within the depth that it is given. -/
theorem exists_conflictsIn (hsites : sites.Closed) {ledger : Ledger}
    (hledger : ledger.Genuine sites) {parent : Option TypeDefinition} {address : Address}
    {selections : SelectionSet} (hset : sites.Set parent address selections) :
    ∃ after conflicts, conflictsIn schema document ledger parent address selections =
      some (after, conflicts) := by
  obtain ⟨middle, set, hgather, hmiddle, -, hfound⟩ := Ledger.gather_set hledger hset
  have htasks : ∀ task ∈ tasksForSet set, task.Genuine sites := fun _ =>
    genuine_of_mem_tasksForSet hsites hfound.self
  obtain ⟨⟨after, conflicts⟩, hall⟩ :=
    exists_doAll_of_genuine hsites (Nat.le_succ (depthBound document)) htasks hmiddle
  exact ⟨after, conflicts, by simp [conflictsIn, hgather, hall]⟩

end

end QueryAudit.Merge
