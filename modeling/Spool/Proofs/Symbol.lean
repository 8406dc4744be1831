import Mathlib.Algebra.Group.Nat.Defs
import Mathlib.Data.Finset.Card
import Spool.Symbol

/-!
# Numbers of texts, whatever comes in between

Any number of clients share one table. An addition takes two steps, a probe and, after a miss, an insertion; other clients
may come in between, and two of them may miss the same new text before either has inserted it. A history is the list of
what the clients have been told. What it says about numbers is fixed by the order in which texts have first been inserted.
-/

namespace Spool

namespace SymbolTable

/-- The table after these texts have been inserted, one after the other. -/
structure Records (t : SymbolTable) (texts : List String) : Prop where
  order : t.texts.toList = texts.eraseDups
  lookup : ∀ text, t.lookup text = if text ∈ texts then some (texts.eraseDups.idxOf text) else none

theorem records_empty : ({} : SymbolTable).Records [] where
  order := by simp
  lookup := by simp [SymbolTable.lookup]

variable {t : SymbolTable} {texts : List String} {text : String}

theorem eraseDups_concat (texts : List String) (text : String) :
    (texts ++ [text]).eraseDups = if text ∈ texts then texts.eraseDups else texts.eraseDups ++ [text] := by
  rw [List.eraseDups_append]
  split <;> rename_i h <;> simp [List.removeAll, h, List.eraseDups_cons]

/-- A text that has been inserted keeps its place. -/
theorem idxOf_eraseDups_append (h : text ∈ texts) (others : List String) :
    (texts ++ others).eraseDups.idxOf text = texts.eraseDups.idxOf text := by
  rw [List.eraseDups_append, List.idxOf_append_of_mem (List.mem_eraseDups.2 h)]

theorem eraseDups_nodup (texts : List String) : texts.eraseDups.Nodup := by
  induction texts using List.reverseRecOn with
  | nil => simp
  | append_singleton texts text ih =>
      rw [eraseDups_concat]
      split
      · exact ih
      · rename_i h
        exact List.nodup_append.2 ⟨ih, List.nodup_singleton _, by rintro x hx y hy rfl; simp_all⟩

theorem length_eraseDups (texts : List String) : texts.eraseDups.length = texts.toFinset.card := by
  rw [← List.toFinset_card_of_nodup (eraseDups_nodup texts)]
  exact congrArg Finset.card (by ext; simp)

theorem Records.size (h : t.Records texts) : t.size = texts.toFinset.card := by
  rw [← length_eraseDups, ← h.order, Array.length_toList]
  rfl

theorem Records.get? (h : t.Records texts) (n : Nat) : t.get? n = texts.eraseDups[n]? := by
  rw [← h.order, Array.getElem?_toList]
  rfl

/-- Insertion finds the text, or puts it behind the others. -/
theorem Records.getOrAdd (h : t.Records texts) (text : String) :
    (t.getOrAdd text).2.Records (texts ++ [text]) ∧
      (t.getOrAdd text).1 = (texts ++ [text]).eraseDups.idxOf text := by
  unfold SymbolTable.getOrAdd
  rw [h.lookup]
  by_cases hm : text ∈ texts
  · have hsame : (texts ++ [text]).eraseDups = texts.eraseDups := by rw [eraseDups_concat, if_pos hm]
    simp only [if_pos hm]
    refine ⟨⟨hsame ▸ h.order, fun x => ?_⟩, by rw [hsame]⟩
    rw [h.lookup, hsame]
    by_cases hx : x = text <;> simp [hx, hm]
  · have hmore : (texts ++ [text]).eraseDups = texts.eraseDups ++ [text] := by rw [eraseDups_concat, if_neg hm]
    have hsize : t.texts.size = texts.eraseDups.length := by rw [← h.order, Array.length_toList]
    have hplace : (texts ++ [text]).eraseDups.idxOf text = t.texts.size := by
      rw [hmore, List.idxOf_append_of_notMem (by simpa using hm), hsize]
      simp
    simp only [if_neg hm]
    refine ⟨⟨by simp [hmore, h.order], fun x => ?_⟩, hplace.symm⟩
    change (t.numbers.insert text t.texts.size)[x]? = _
    rw [Std.HashMap.getElem?_insert]
    by_cases hx : text = x
    · subst hx
      simp [hplace]
    · have hlookup := h.lookup x
      unfold SymbolTable.lookup at hlookup
      rw [if_neg (by simpa using hx), hlookup]
      by_cases hmx : x ∈ texts
      · simp [hmx, idxOf_eraseDups_append hmx]
      · simp [hmx, Ne.symm hx]

end SymbolTable

/-! ## Clients -/

/-- The table and, for each client, the text that its probe has missed. -/
structure SymbolClients where
  table : SymbolTable := {}
  missed : Nat → Option String := fun _ => none

namespace SymbolClients

/-- A step during which nobody else is at the table. -/
inductive Step where
  | probe (client : Nat) (text : String)
  | insert (client : Nat)
  | lookup (text : String)
  | get (number : UInt32)
  | size

/-- What the client is told. -/
inductive Event where
  | hit (client : Nat) (text : String) (number : UInt32)
  | miss (client : Nat) (text : String)
  | inserted (client : Nat) (text : String) (number : UInt32)
  | found (text : String) (number? : Option UInt32)
  | got (number : UInt32) (text? : Option String)
  | counted (size : Nat)
  | nothing
deriving DecidableEq

/-- The end of an addition. -/
def Event.added? : Event → Option (String × UInt32)
  | .hit _ text number => some (text, number)
  | .inserted _ text number => some (text, number)
  | _ => none

def Event.inserted? : Event → Option String
  | .inserted _ text _ => some text
  | _ => none

/-- The text that the client has missed from now on. -/
def setMissed (s : SymbolClients) (client : Nat) (text? : Option String) : SymbolClients :=
  { s with missed := fun c => if c = client then text? else s.missed c }

def act (s : SymbolClients) : Step → Event × SymbolClients
  | .probe client text =>
    -- a client ends one addition before it begins another
    if (s.missed client).isSome then (.nothing, s)
    else
      match s.table.lookup text with
      | some n => (.hit client text (.ofNat n), s)
      | none => (.miss client text, s.setMissed client (some text))
  | .insert client =>
    match s.missed client with
    | none => (.nothing, s)
    | some text =>
      let (n, table) := s.table.getOrAdd text
      (.inserted client text (.ofNat n), { s.setMissed client none with table })
  | .lookup text => (.found text ((s.table.lookup text).map .ofNat), s)
  | .get number => (.got number (s.table.get? number.toNat), s)
  | .size => (.counted s.table.size, s)

def after (s : SymbolClients) (steps : List Step) : SymbolClients := steps.foldl (fun s step => (s.act step).2) s

def history (s : SymbolClients) : List Step → List Event
  | [] => []
  | step :: rest => (s.act step).1 :: (s.act step).2.history rest

/-- The texts that insertions have been made of, in order. -/
def insertions (events : List Event) : List String := events.filterMap Event.inserted?

theorem insertions_cons (e : Event) (events : List Event) :
    insertions (e :: events) = e.inserted?.toList ++ insertions events := by
  unfold insertions
  rw [List.filterMap_cons]
  cases e.inserted? <;> rfl

theorem insertions_take (events : List Event) (i : Nat) :
    insertions (events.take i) <+: insertions events :=
  (List.take_prefix i events).filterMap _

variable {s : SymbolClients} {texts : List String} {step : Step}

/-- An addition that nobody comes in between is that of a table with one client. -/
theorem add_alone {client : Nat} (hidle : s.missed client = none) (text : String) :
    (s.after [.probe client text, .insert client]).table = (s.table.add text).2 ∧
      (s.history [.probe client text, .insert client]).filterMap Event.added? =
        [(text, .ofNat (s.table.add text).1)] := by
  cases hl : s.table.lookup text with
  | some n => simp [after, history, act, SymbolTable.add, hidle, hl, Event.added?]
  | none => simp [after, history, act, SymbolTable.add, setMissed, hidle, hl, List.filterMap_cons, Event.added?]

/-! ## What one step tells -/

/-- What the event says is so, these texts having been inserted before it. -/
def Event.Right (before : List String) : Event → Prop
  | .hit _ text number => text ∈ before ∧ number = .ofNat (before.eraseDups.idxOf text)
  | .miss _ text => text ∉ before
  | .inserted _ text number => number = .ofNat ((before ++ [text]).eraseDups.idxOf text)
  | .found text number? => number? = if text ∈ before then some (.ofNat (before.eraseDups.idxOf text)) else none
  | .got number text? => text? = before.eraseDups[number.toNat]?
  | .counted size => size = before.toFinset.card
  | .nothing => True

/-- One step. -/
theorem records_act (h : s.table.Records texts) (step : Step) :
    (s.act step).1.Right texts ∧ (s.act step).2.table.Records (texts ++ (s.act step).1.inserted?.toList) := by
  cases step with
  | probe client text =>
      unfold act
      dsimp only
      split
      · simpa [Event.inserted?, Event.Right] using h
      · rw [h.lookup]
        by_cases hm : text ∈ texts
        · simpa [hm, Event.inserted?, Event.Right] using h
        · simpa [hm, Event.inserted?, Event.Right, setMissed] using h
  | insert client =>
      unfold act
      dsimp only
      split
      · simpa [Event.inserted?, Event.Right] using h
      · rename_i text hmissed
        obtain ⟨hrecords, hnumber⟩ := h.getOrAdd text
        exact ⟨congrArg UInt32.ofNat hnumber, hrecords⟩
  | lookup text =>
      refine ⟨?_, by simpa [act, Event.inserted?] using h⟩
      simp only [act, Event.Right, h.lookup]
      split <;> rfl
  | get number => exact ⟨h.get? _, by simpa [act, Event.inserted?] using h⟩
  | size => exact ⟨h.size, by simpa [act, Event.inserted?] using h⟩

/-- A whole history: each event is right of what has been inserted before it. -/
theorem right_history (steps : List Step) : ∀ {s : SymbolClients} {texts : List String}, s.table.Records texts →
    ∀ {i : Nat} {e : Event}, (s.history steps)[i]? = some e →
      e.Right (texts ++ insertions ((s.history steps).take i)) := by
  induction steps with
  | nil => simp [history]
  | cons step rest ih =>
      intro s texts h i e he
      obtain ⟨hright, hrecords⟩ := records_act h step
      cases i with
      | zero =>
          obtain rfl : (s.act step).1 = e := by simpa [history] using he
          simpa [insertions] using hright
      | succ i =>
          have hrest := ih hrecords (i := i) (by simpa [history] using he)
          rw [history, List.take_succ_cons, insertions_cons, ← List.append_assoc]
          exact hrest

/-! ## What a history agrees on -/

variable {steps : List Step} {i j : Nat} {e : Event} {text : String} {number : UInt32}

/-- The number that the order of first insertions gives to a text. -/
def placeIn (events : List Event) (text : String) : Nat := (insertions events).eraseDups.idxOf text

/-- A text that has been inserted keeps its number. -/
theorem placeIn_take {events : List Event} (hm : text ∈ insertions (events.take i)) :
    placeIn (events.take i) text = placeIn events text := by
  obtain ⟨others, ho⟩ := insertions_take events i
  unfold placeIn
  rw [← ho, SymbolTable.idxOf_eraseDups_append hm]

theorem insertions_take_mono {events : List Event} (hij : i ≤ j) (hm : text ∈ insertions (events.take i)) :
    text ∈ insertions (events.take j) := by
  have hearlier : events.take i <+: events.take j := List.take_prefix_take_left hij
  exact (hearlier.filterMap _).subset hm

theorem insertions_take_succ {events : List Event} (he : events[i]? = some e) :
    insertions (events.take (i + 1)) = insertions (events.take i) ++ e.inserted?.toList := by
  rw [List.take_add_one, he]
  unfold insertions
  rw [List.filterMap_append]
  cases h : e.inserted? <;> simp [h]

/-- The text of the addition that ends at this moment, and its number. -/
def addition? (events : List Event) (i : Nat) : Option (String × UInt32) := events[i]?.bind Event.added?

/-- An addition is told the number of its text, which has been inserted by then. -/
theorem addition?_history (h : addition? (({} : SymbolClients).history steps) i = some (text, number)) :
    text ∈ insertions ((({} : SymbolClients).history steps).take (i + 1)) ∧
      number = .ofNat (placeIn (({} : SymbolClients).history steps) text) := by
  obtain ⟨e, he, ha⟩ := Option.bind_eq_some_iff.1 h
  have hright := right_history steps SymbolTable.records_empty he
  rw [List.nil_append] at hright
  cases e with
  | hit client text' number' =>
      obtain ⟨rfl, rfl⟩ : text' = text ∧ number' = number := by simpa [Event.added?] using ha
      exact ⟨insertions_take_mono (Nat.le_succ i) hright.1, by rw [← placeIn_take hright.1]; exact hright.2⟩
  | inserted client text' number' =>
      obtain ⟨rfl, rfl⟩ : text' = text ∧ number' = number := by simpa [Event.added?] using ha
      have hsucc := insertions_take_succ he
      have hm : text' ∈ insertions ((({} : SymbolClients).history steps).take (i + 1)) := by
        simp [hsucc, Event.inserted?]
      refine ⟨hm, ?_⟩
      rw [← placeIn_take hm]
      unfold placeIn
      rw [hsucc]
      exact hright
  | _ => simp [Event.added?] at ha

theorem addition?_of_inserted {events : List Event} {client : Nat}
    (he : events[i]? = some (.inserted client text number)) : addition? events i = some (text, number) := by
  simp [addition?, he, Event.added?]

/-- Whatever has been inserted has been inserted by somebody. -/
theorem exists_inserted {events : List Event} (hm : text ∈ insertions (events.take i)) :
    ∃ j < i, ∃ client number, events[j]? = some (.inserted client text number) := by
  obtain ⟨e, he, hi⟩ := List.mem_filterMap.1 hm
  obtain ⟨j, hj⟩ := List.mem_iff_getElem?.1 he
  rw [List.getElem?_take] at hj
  split at hj
  · rename_i hlt
    cases e with
    | inserted client text' number =>
        obtain rfl : text' = text := by simpa [Event.inserted?] using hi
        exact ⟨j, hlt, client, number, hj⟩
    | _ => simp [Event.inserted?] at hi
  · cases hj

/-- Whatever comes in between the probes and the insertions of the clients, numbers count the texts in the order of their
first insertions; a number stands for one text for ever, and what a lookup finds or a count tells is what has been inserted
before it. -/
theorem numbers_agree_in_every_order (steps : List Step)
    (hfew : (insertions (({} : SymbolClients).history steps)).toFinset.card ≤ 2 ^ 32) :
    let events := ({} : SymbolClients).history steps
    let order := (insertions events).eraseDups
    (∀ i text number, addition? events i = some (text, number) → order[number.toNat]? = some text) ∧
      (∀ (k : Nat) text, order[k]? = some text → ∃ (i : Nat) (client : Nat),
        events[i]? = some (.inserted client text (.ofNat k))) ∧
      (∀ i j text text' number number', addition? events i = some (text, number) →
        addition? events j = some (text', number') → (number = number' ↔ text = text')) ∧
      (∀ (i j : Nat) text number text?, i < j → addition? events i = some (text, number) →
        events[j]? = some (.got number text?) → text? = some text) ∧
      (∀ (i : Nat) text number?, events[i]? = some (.found text number?) → ∀ number,
        number? = some number ↔ ∃ j < i, ∃ client, events[j]? = some (.inserted client text number)) ∧
      ∀ (i : Nat) size, events[i]? = some (.counted size) → size = (insertions (events.take i)).toFinset.card := by
  intro events order
  have hright : ∀ {i : Nat} {e : Event}, events[i]? = some e → e.Right (insertions (events.take i)) := fun he => by
    simpa using right_history steps SymbolTable.records_empty he
  have hplace : ∀ {i text number}, addition? events i = some (text, number) →
      text ∈ insertions (events.take (i + 1)) ∧ number.toNat = placeIn events text := by
    intro i text number ha
    obtain ⟨hm, rfl⟩ := addition?_history ha
    have hlt : placeIn events text < order.length :=
      List.idxOf_lt_length_iff.2 (List.mem_eraseDups.2 ((insertions_take events (i + 1)).subset hm))
    have hlength : order.length ≤ 2 ^ 32 := (SymbolTable.length_eraseDups _).trans_le hfew
    exact ⟨hm, UInt32.toNat_ofNat_of_lt' (Nat.lt_of_lt_of_le hlt hlength)⟩
  have hreads : ∀ {i j text number}, i < j → addition? events i = some (text, number) →
      (insertions (events.take j)).eraseDups[number.toNat]? = some text := by
    intro i j text number hij ha
    obtain ⟨hm, hn⟩ := hplace ha
    have hmj : text ∈ insertions (events.take j) := insertions_take_mono hij hm
    rw [hn, ← placeIn_take hmj]
    exact List.getElem?_idxOf (List.mem_eraseDups.2 hmj)
  have horder : ∀ {i text number}, addition? events i = some (text, number) → order[number.toNat]? = some text := by
    intro i text number ha
    have hi := hreads (Nat.lt_add_left events.length (Nat.lt_succ_self i)) ha
    rwa [List.take_of_length_le (Nat.le_add_right _ _)] at hi
  refine ⟨fun i text number => horder, fun k text hk => ?_, ?_, ?_, ?_, fun i size he => hright he⟩
  · obtain ⟨hlt, rfl⟩ := List.getElem?_eq_some_iff.1 hk
    have hm : order[k] ∈ insertions (events.take events.length) := by
      rw [List.take_length]
      exact List.mem_eraseDups.1 (List.getElem_mem hlt)
    obtain ⟨i, -, client, number, hi⟩ := exists_inserted hm
    obtain ⟨-, rfl⟩ := addition?_history (addition?_of_inserted hi)
    have hk : placeIn events order[k] = k := (SymbolTable.eraseDups_nodup _).idxOf_getElem k hlt
    exact ⟨i, client, by rw [hk] at hi; exact hi⟩
  · intro i j text text' number number' ha ha'
    constructor
    · rintro rfl
      exact Option.some.inj ((horder ha).symm.trans (horder ha'))
    · rintro rfl
      rw [(addition?_history ha).2, (addition?_history ha').2]
  · intro i j text number text? hij ha hgot
    have htext : text? = (insertions (events.take j)).eraseDups[number.toNat]? := hright hgot
    exact htext.trans (hreads hij ha)
  · intro i text number? hfound number
    have hnumber : number? = if text ∈ insertions (events.take i) then
        some (.ofNat (placeIn (events.take i) text)) else none := hright hfound
    constructor
    · rintro rfl
      split at hnumber
      · rename_i hm
        obtain ⟨j, hji, client, number', hj⟩ := exists_inserted hm
        obtain ⟨-, rfl⟩ := addition?_history (addition?_of_inserted hj)
        rw [placeIn_take hm] at hnumber
        exact ⟨j, hji, client, by rw [Option.some.inj hnumber]; exact hj⟩
      · cases hnumber
    · rintro ⟨j, hji, client, hj⟩
      obtain ⟨hmj, rfl⟩ := addition?_history (addition?_of_inserted hj)
      have hm : text ∈ insertions (events.take i) := insertions_take_mono hji hmj
      rw [hnumber, if_pos hm, placeIn_take hm]

/-- Two clients miss the same new text before either has inserted it, and a third one inserts another text in between. -/
def crossing : List Step :=
  [.probe 0 "a", .probe 1 "a", .probe 2 "b", .insert 2, .insert 0, .lookup "a", .insert 1, .probe 2 "a", .get 1, .size]

theorem history_crossing : ({} : SymbolClients).history crossing =
    [.miss 0 "a", .miss 1 "a", .miss 2 "b", .inserted 2 "b" 0, .inserted 0 "a" 1, .found "a" (some 1), .inserted 1 "a" 1,
      .hit 2 "a" 1, .got 1 (some "a"), .counted 2] := by
  simp [history, crossing, act, setMissed, SymbolTable.lookup, SymbolTable.getOrAdd, SymbolTable.get?, SymbolTable.size]

theorem numbers_agree_in_every_order_crossing :
    let events := ({} : SymbolClients).history crossing
    (insertions events).toFinset.card ≤ 2 ^ 32 ∧ addition? events 4 = some ("a", 1) ∧ addition? events 6 = some ("a", 1) ∧
      events[8]? = some (.got 1 (some "a")) ∧ (insertions events).eraseDups[(1 : UInt32).toNat]? = some "a" := by
  intro events
  have hevents := history_crossing
  have hfew : (insertions events).toFinset.card ≤ 2 ^ 32 := by
    simp only [events, hevents]
    decide
  have ha : addition? events 4 = some ("a", 1) := by
    simp only [events, hevents]
    decide
  have hagree := numbers_agree_in_every_order crossing hfew
  have hgot : events[8]? = some (.got 1 (some "a")) := by
    simp only [events, hevents]
    decide
  have hsecond : addition? events 6 = some ("a", 1) := by
    simp only [events, hevents]
    decide
  exact ⟨hfew, ha, hsecond, hgot, hagree.1 4 "a" 1 ha⟩

end SymbolClients

end Spool
