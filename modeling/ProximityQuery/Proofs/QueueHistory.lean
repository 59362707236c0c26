import Mathlib
import ProximityQuery.Proofs.Placeholders
import ProximityQuery.Session

/-!
# Histories of a queue

A parser and its queue of phrases over any sequence of pushes, resolutions, insertions of terms and
changes of the order. What was written of an anchor never changes, and neither does a tree once it
is there. A resolution stops at the first anchor that cannot be resolved, and what it makes of an
anchor depends on nothing but the field and the raw text of that anchor, the terms known by then and
the settings other than the order.
-/

namespace ProximityQuery

namespace Anchor

variable {ε : Type} {tree? : Anchor → Except ε ClauseTree} {a b c : Anchor}

/-- What may become of an anchor: what was written stays, and so does the tree once it is there. -/
structure KeptAs (a b : Anchor) : Prop where
  field : b.field = a.field
  rawText : b.rawText = a.rawText
  slop : b.slop = a.slop
  inOrder : b.inOrder = a.inOrder
  resolved : ∀ tree, a.resolved = some tree → b.resolved = some tree

/-- An anchor may stay as it is. -/
theorem KeptAs.refl (a : Anchor) : a.KeptAs a :=
  ⟨rfl, rfl, rfl, rfl, fun _ h => h⟩

/-- What is kept twice is kept. -/
theorem KeptAs.trans (h : a.KeptAs b) (h' : b.KeptAs c) : a.KeptAs c where
  field := h'.field.trans h.field
  rawText := h'.rawText.trans h.rawText
  slop := h'.slop.trans h.slop
  inOrder := h'.inOrder.trans h.inOrder
  resolved tree htree := h'.resolved tree (h.resolved tree htree)

/-- What a resolution may do to one anchor: nothing, or give it the tree that it did not have. -/
def StaysOrResolves (tree? : Anchor → Except ε ClauseTree) (a b : Anchor) : Prop :=
  b = a ∨ a.resolved = none ∧ ∃ tree, tree? a = .ok tree ∧ b = { a with resolved := some tree }

/-- A resolution keeps what is written of an anchor, and a tree that is there. -/
theorem StaysOrResolves.keptAs (h : StaysOrResolves tree? a b) : a.KeptAs b := by
  obtain rfl | ⟨hnone, tree, -, rfl⟩ := h
  · exact .refl b
  · refine ⟨rfl, rfl, rfl, rfl, fun old hold => ?_⟩
    rw [hnone] at hold
    cases hold

/-- A resolution does to every anchor what it may do to one, also when it stops with an error. -/
theorem forall₂_resolveAll (tree? : Anchor → Except ε ClauseTree) (anchors : List Anchor) :
    List.Forall₂ (StaysOrResolves tree?) anchors (resolveAll tree? anchors).2 := by
  have hsame : ∀ rest : List Anchor, List.Forall₂ (StaysOrResolves tree?) rest rest :=
    fun rest => List.forall₂_same.mpr fun a _ => .inl rfl
  induction anchors with
  | nil => exact .nil
  | cons a rest ih =>
    rw [resolveAll]
    split
    · exact .cons (.inl rfl) ih
    next hnone =>
      split
      · exact hsame (a :: rest)
      next tree htree => exact .cons (.inr ⟨hnone, tree, htree, rfl⟩) ih

/-- Whether an anchor has its tree or can be given one. -/
def Resolvable (tree? : Anchor → Except ε ClauseTree) (a : Anchor) : Prop :=
  a.resolved = none → ∃ tree, tree? a = .ok tree

/-- The number of anchors without a tree. -/
def unresolvedCount (anchors : List Anchor) : Nat :=
  anchors.countP fun a => a.resolved.isNone

/-- Anchors that can all be resolved are, one after the other, before the resolution goes on. -/
theorem exists_resolveAll_append {before : List Anchor}
    (h : ∀ a ∈ before, a.Resolvable tree?) (rest : List Anchor) :
    ∃ resolved, List.Forall₂ (ResolvesTo tree?) before resolved ∧
      resolveAll tree? (before ++ rest) =
        ((resolveAll tree? rest).1.map (· + unresolvedCount before),
          resolved ++ (resolveAll tree? rest).2) := by
  induction before with
  | nil =>
    refine ⟨[], .nil, ?_⟩
    rw [List.nil_append]
    rcases resolveAll tree? rest with ⟨_ | n, others⟩
    · rfl
    · rfl
  | cons a before ih =>
    obtain ⟨resolved, hresolved, hall⟩ := ih fun b hb => h b (List.mem_cons_of_mem _ hb)
    rw [List.cons_append, resolveAll, hall]
    cases ha : a.resolved with
    | some tree =>
      have hcount : unresolvedCount (a :: before) = unresolvedCount before := by
        simp [unresolvedCount, ha]
      have hself : a = { a with resolved := some tree } := by rw [← ha]
      rw [hcount]
      exact ⟨a :: resolved, .cons ⟨tree, hself, .inl ha⟩ hresolved, rfl⟩
    | none =>
      obtain ⟨tree, htree⟩ := h a List.mem_cons_self ha
      have hcount : unresolvedCount (a :: before) = unresolvedCount before + 1 := by
        simp [unresolvedCount, ha]
      rw [hcount]
      refine ⟨{ a with resolved := some tree } :: resolved,
        .cons ⟨tree, rfl, .inr ⟨ha, htree⟩⟩ hresolved, ?_⟩
      simp only [htree]
      rcases resolveAll tree? rest with ⟨_ | n, others⟩
      · rfl
      · rfl

/-- How a resolution goes. When every anchor has a tree or can be given one, it counts those that
had none and all have theirs. Otherwise it ends with the error of the first that can be given none:
those before it have their trees, and it and those after it are as they were. -/
structure ResolvesInOrder (tree? : Anchor → Except ε ClauseTree) (anchors : List Anchor)
    (outcome : Except ε Nat) (now : List Anchor) : Prop where
  all : (∀ a ∈ anchors, a.Resolvable tree?) →
    outcome = .ok (unresolvedCount anchors) ∧ List.Forall₂ (ResolvesTo tree?) anchors now
  first : (∃ a ∈ anchors, ¬ a.Resolvable tree?) →
    ∃ before a after error resolved, anchors = before ++ a :: after ∧
      (∀ b ∈ before, b.Resolvable tree?) ∧ a.resolved = none ∧ tree? a = .error error ∧
      outcome = .error error ∧
      List.Forall₂ (ResolvesTo tree?) before resolved ∧ now = resolved ++ a :: after

/-- Where not every anchor can be resolved, there is a first that cannot. -/
theorem exists_first_not_resolvable {anchors : List Anchor}
    (h : ∃ a ∈ anchors, ¬ a.Resolvable tree?) :
    ∃ before a after error, anchors = before ++ a :: after ∧
      (∀ b ∈ before, b.Resolvable tree?) ∧ a.resolved = none ∧ tree? a = .error error := by
  induction anchors with
  | nil =>
    obtain ⟨a, ha, -⟩ := h
    cases ha
  | cons a rest ih =>
    by_cases ha : a.Resolvable tree?
    · have hrest : ∃ b ∈ rest, ¬ b.Resolvable tree? := by
        obtain ⟨b, hb, hfails⟩ := h
        rcases List.mem_cons.mp hb with rfl | hb
        · exact absurd ha hfails
        · exact ⟨b, hb, hfails⟩
      obtain ⟨before, b, after, error, rfl, hbefore, hb⟩ := ih hrest
      refine ⟨a :: before, b, after, error, rfl, fun c hc => ?_, hb⟩
      rcases List.mem_cons.mp hc with rfl | hc
      · exact ha
      · exact hbefore c hc
    · rw [Resolvable, Classical.not_imp] at ha
      obtain ⟨hnone, hfails⟩ := ha
      cases htree : tree? a with
      | error error => exact ⟨[], a, rest, error, rfl, nofun, hnone, htree⟩
      | ok tree => exact absurd ⟨tree, htree⟩ hfails

/-- Resolving a queue goes in order, whatever the trees are made by. -/
theorem resolvesInOrder_resolveAll (tree? : Anchor → Except ε ClauseTree)
    (anchors : List Anchor) :
    ResolvesInOrder tree? anchors (resolveAll tree? anchors).1 (resolveAll tree? anchors).2 where
  all h := by
    obtain ⟨resolved, hresolved, hall⟩ := exists_resolveAll_append h []
    rw [List.append_nil] at hall
    rw [hall]
    refine ⟨congrArg Except.ok (Nat.zero_add _), ?_⟩
    simpa [resolveAll] using hresolved
  first h := by
    obtain ⟨before, a, after, error, rfl, hbefore, hnone, hfails⟩ := exists_first_not_resolvable h
    obtain ⟨resolved, hresolved, hall⟩ := exists_resolveAll_append hbefore (a :: after)
    have hstop : resolveAll tree? (a :: after) = (.error error, a :: after) := by
      simp only [resolveAll, hnone, hfails]
    rw [hstop] at hall
    rw [hall]
    exact ⟨before, a, after, error, resolved, rfl, hbefore, hnone, hfails, rfl, hresolved, rfl⟩

end Anchor

/-- Every anchor of the first queue stands in the second under its number, kept as it may be. -/
def AnchorQueue.KeptIn (q r : AnchorQueue) : Prop :=
  ∀ id a, q.get? id = some a → ∃ b, r.get? id = some b ∧ a.KeptAs b

/-- A queue is kept in itself. -/
theorem AnchorQueue.KeptIn.refl (q : AnchorQueue) : q.KeptIn q :=
  fun _ a ha => ⟨a, ha, .refl a⟩

/-- A queue that is kept in a second one is kept wherever the second one is. -/
theorem AnchorQueue.KeptIn.trans {q r s : AnchorQueue} (h : q.KeptIn r) (h' : r.KeptIn s) :
    q.KeptIn s := by
  intro id a ha
  obtain ⟨b, hb, hab⟩ := h id a ha
  obtain ⟨c, hc, hbc⟩ := h' id b hb
  exact ⟨c, hc, hab.trans hbc⟩

namespace Session

/-- Events in two runs are events in one. -/
theorem after_append (s : Session) (earlier later : List Event) :
    s.after (earlier ++ later) = (s.after earlier).after later := by
  induction earlier generalizing s with
  | nil => rfl
  | cons event earlier ih => exact ih (s.step event).2

/-- The anchors before and after a resolution, number by number. -/
theorem get?_step_resolve (s : Session) (id : Nat) :
    Option.Rel (Anchor.StaysOrResolves s.parser.treeOf) (s.anchors.get? id)
      ((s.step .resolve).2.anchors.get? id) := by
  have hall := Anchor.forall₂_resolveAll s.parser.treeOf s.anchors.toList
  have hlength := hall.length_eq
  have hget : (s.step .resolve).2.anchors.get? id =
      (Anchor.resolveAll s.parser.treeOf s.anchors.toList).2[id]? := rfl
  rw [hget, AnchorQueue.get?]
  by_cases hid : id < s.anchors.toList.length
  · have hid' : id < (Anchor.resolveAll s.parser.treeOf s.anchors.toList).2.length := hlength ▸ hid
    rw [List.getElem?_eq_getElem hid, List.getElem?_eq_getElem hid']
    exact .some (hall.get hid hid')
  · have hid' := hlength ▸ Nat.le_of_not_lt hid
    rw [List.getElem?_eq_none (Nat.le_of_not_lt hid), List.getElem?_eq_none hid']
    exact .none

/-- No event takes an anchor away or changes more of it than it may. -/
theorem keptIn_step (s : Session) (event : Event) : s.anchors.KeptIn (s.step event).2.anchors := by
  cases event with
  | push field rawText slop inOrder =>
    intro id a ha
    have hid := (List.getElem?_eq_some_iff.mp ha).1
    exact ⟨a, (List.getElem?_append_left hid).trans ha, .refl a⟩
  | resolve =>
    intro id a ha
    have hrel := s.get?_step_resolve id
    rw [ha] at hrel
    generalize hb : (s.step .resolve).2.anchors.get? id = found at hrel
    cases hrel with
    | @some _ b h => exact ⟨b, rfl, h.keptAs⟩
  | insert field terms => exact .refl _
  | setInOrder inOrder => exact .refl _

/-- No run of events takes an anchor away or changes more of it than it may. -/
theorem keptIn_after (s : Session) (events : List Event) :
    s.anchors.KeptIn (s.after events).anchors := by
  induction events generalizing s with
  | nil => exact .refl _
  | cons event events ih => exact (s.keptIn_step event).trans (ih _)

/-- A tree that is there after an event was there before, unless the event is the resolution that
made it. -/
theorem resolved_of_step {s : Session} {event : Event} {id : Nat} {b : Anchor} {tree : ClauseTree}
    (hb : (s.step event).2.anchors.get? id = some b) (htree : b.resolved = some tree) :
    (∃ a, s.anchors.get? id = some a ∧ a.resolved = some tree) ∨
      event = .resolve ∧ ∃ a, s.anchors.get? id = some a ∧ a.resolved = none ∧ a.KeptAs b ∧
        s.parser.treeOf a = .ok tree := by
  cases event with
  | push field rawText slop inOrder =>
    let pushed : Anchor := { field, rawText, slop, inOrder }
    have happend : (s.anchors.toList ++ [pushed])[id]? = some b := hb
    rw [List.getElem?_append] at happend
    split at happend
    · exact .inl ⟨b, happend, htree⟩
    · -- the anchor that was pushed has no tree
      rw [List.getElem?_singleton] at happend
      split at happend
      · obtain rfl := Option.some.inj happend
        cases htree
      · cases happend
  | resolve =>
    have hrel := s.get?_step_resolve id
    rw [hb] at hrel
    generalize ha : s.anchors.get? id = found at hrel
    cases hrel with
    | @some a _ h =>
      have hkept := h.keptAs
      rcases h with rfl | ⟨hnone, made, hmade, rfl⟩
      · exact .inl ⟨b, rfl, htree⟩
      · obtain rfl := Option.some.inj htree
        exact .inr ⟨rfl, a, rfl, hnone, hkept, hmade⟩
  | insert field terms => exact .inl ⟨b, hb, htree⟩
  | setInOrder inOrder => exact .inl ⟨b, hb, htree⟩

/-- Every tree that is there after some events was there at the start, or one of the events is the
resolution that made it. -/
theorem resolved_of_after {s : Session} {events : List Event} {id : Nat} {b : Anchor}
    {tree : ClauseTree} (hb : (s.after events).anchors.get? id = some b)
    (htree : b.resolved = some tree) :
    (∃ a, s.anchors.get? id = some a ∧ a.resolved = some tree) ∨
      ∃ before rest a, events = before ++ .resolve :: rest ∧
        (s.after before).anchors.get? id = some a ∧ a.resolved = none ∧ a.KeptAs b ∧
        (s.after before).parser.treeOf a = .ok tree := by
  induction events generalizing s with
  | nil => exact .inl ⟨b, hb, htree⟩
  | cons event events ih =>
    rcases ih hb with ⟨a, ha, hresolved⟩ | ⟨before, rest, a, rfl, hmade⟩
    · rcases resolved_of_step ha hresolved with hstart | ⟨rfl, c, hc, hnone, hkept, hmade⟩
      · exact .inl hstart
      · obtain ⟨b', hb', hkept'⟩ := keptIn_after _ events id a ha
        obtain rfl := Option.some.inj (hb'.symm.trans hb)
        exact .inr ⟨[], events, c, rfl, hc, hnone, hkept.trans hkept', hmade⟩
    · exact .inr ⟨event :: before, rest, a, rfl, hmade⟩

/-- No event changes a setting other than the order. -/
theorem config_after (s : Session) (events : List Event) :
    (s.after events).parser.config =
      { s.parser.config with inOrder := (s.after events).parser.config.inOrder } := by
  induction events generalizing s with
  | nil => rfl
  | cons event events ih =>
    rw [after, ih (s.step event).2]
    cases event <;> rfl

/-- Patterns are compiled by the same package after any events. -/
theorem regex_after (s : Session) (events : List Event) :
    (s.after events).parser.regex = s.parser.regex := by
  induction events generalizing s with
  | nil => rfl
  | cons event events ih =>
    rw [after, ih (s.step event).2]
    cases event <;> rfl

/-- What an anchor stands for after some events depends on what is written of it, on the terms known
by then and on the settings other than the order. -/
theorem treeOf_after (s : Session) (events : List Event) (a : Anchor) :
    (s.after events).parser.treeOf a =
      resolvePhrase s.parser.config.dialect s.parser.regex (s.after events).parser.dictionary
        s.parser.config.maxExpansions a.field a.rawText := by
  rw [Parser.treeOf, config_after, regex_after]
  rfl

/-- The anchors of an empty queue and of a captured one have no trees. -/
theorem unresolved_of_captured {s : Session}
    (h : s.anchors = {} ∨ ∃ text query, s.parser.capture text = .ok (query, s.anchors)) :
    ∀ a ∈ s.anchors.toList, a.resolved = none := by
  intro a ha
  rcases h with hempty | ⟨text, query, hcapture⟩
  · rw [hempty] at ha
    cases ha
  · obtain ⟨e, -, -, hanchors⟩ := Parser.capture_eq_ok_iff.mp hcapture
    rw [hanchors] at ha
    exact (Expression.fresh_of_mem_anchors ha).1

/-- A session that starts with an empty queue or a captured one, after any events `earlier` and
again after `later` ones. A push gives the number of anchors before it, and a resolution goes in
order, with trees that depend on nothing but the field and the raw text of each anchor, the terms
known by then and the settings other than the order. Terms and settings leave the queue alone, what
was written of an anchor and the tree it has are still there later, and every tree was made by just
such a resolution. -/
theorem anchors_over_events (start : Session)
    (hstart : start.anchors = {} ∨
      ∃ text query, start.parser.capture text = .ok (query, start.anchors))
    (earlier later : List Event) :
    let tree? (known : Session) (a : Anchor) : Except QueryError ClauseTree :=
      resolvePhrase start.parser.config.dialect start.parser.regex known.parser.dictionary
        start.parser.config.maxExpansions a.field a.rawText
    let now := start.after earlier
    (∀ field rawText slop inOrder, now.step (.push field rawText slop inOrder) =
      (.number now.anchors.size,
        { now with anchors := ⟨now.anchors.toList ++ [{ field, rawText, slop, inOrder }]⟩ })) ∧
    (∃ outcome anchors,
      now.step .resolve = (.resolved outcome, { now with anchors := ⟨anchors⟩ }) ∧
      Anchor.ResolvesInOrder (tree? now) now.anchors.toList outcome anchors) ∧
    (∀ field terms, (now.step (.insert field terms)).2.anchors = now.anchors) ∧
    (∀ inOrder, (now.step (.setInOrder inOrder)).2.anchors = now.anchors) ∧
    now.anchors.KeptIn (start.after (earlier ++ later)).anchors ∧
    ∀ id b tree, now.anchors.get? id = some b → b.resolved = some tree →
      ∃ before rest a, earlier = before ++ .resolve :: rest ∧
        (start.after before).anchors.get? id = some a ∧ a.resolved = none ∧ a.KeptAs b ∧
        tree? (start.after before) a = .ok tree := by
  intro tree? now
  have htree : now.parser.treeOf = tree? now := funext (start.treeOf_after earlier)
  refine ⟨fun _ _ _ _ => rfl, ⟨_, _, rfl, ?_⟩, fun _ _ => rfl, fun _ => rfl, ?_, ?_⟩
  · rw [← htree]
    exact Anchor.resolvesInOrder_resolveAll now.parser.treeOf now.anchors.toList
  · rw [after_append]
    exact now.keptIn_after later
  · intro id b tree hb hresolved
    rcases resolved_of_after hb hresolved with ⟨a, ha, hold⟩ | ⟨before, rest, a, hsplit, hmade⟩
    · have hnone := unresolved_of_captured hstart a (List.mem_of_getElem? ha)
      rw [hnone] at hold
      cases hold
    · rw [treeOf_after] at hmade
      exact ⟨before, rest, a, hsplit, hmade⟩

/-- Of two captured phrases the second names another field. Resolving them stops there, also after
the order has been changed, and the next anchor has number two. -/
theorem anchors_over_events_of_foreign_field :
    ∃ query first second,
      Parser.capture {} "\"john\" \"title:x\"" = .ok (query, ⟨[first, second]⟩) ∧
      ((Session.after { parser := {}, anchors := ⟨[first, second]⟩ } [.setInOrder false]).step
        .resolve).1 = .resolved (.error (.fieldMismatch "title" "body")) ∧
      ((Session.after { parser := {}, anchors := ⟨[first, second]⟩ } [.setInOrder false]).step
        (.push "body" "mary" 0 false)).1 = .number 2 := by
  let first : Anchor := { field := "body", rawText := "john", slop := 0, inOrder := true }
  let second : Anchor := { field := "body", rawText := "title:x", slop := 0, inOrder := true }
  have hcapture : Parser.capture {} "\"john\" \"title:x\"" =
      .ok (.boolean [(.phrase 0, .should), (.phrase 1, .should)], ⟨[first, second]⟩) := by
    cbv
  have hfirst : resolvePhrase {} {} .empty 1024 "body" "john" =
      .ok (.term { field := "body", text := "john" }) := by
    cbv
  have hsecond : resolvePhrase {} {} .empty 1024 "body" "title:x" =
      .error (.fieldMismatch "title" "body") := by
    cbv
  obtain ⟨hpush, ⟨outcome, anchors, hresolve, horder⟩, -⟩ :=
    anchors_over_events { parser := {}, anchors := ⟨[first, second]⟩ } (.inr ⟨_, _, hcapture⟩)
      [.setInOrder false] []
  obtain ⟨before, a, after, error, -, hsplit, -, -, hfails, houtcome, -⟩ := horder.first
    ⟨second, by simp [after, step], fun h => by
      obtain ⟨tree, htree⟩ := h rfl
      cases hsecond.symm.trans htree⟩
  refine ⟨_, first, second, hcapture, ?_, congrArg Prod.fst (hpush "body" "mary" 0 false)⟩
  have hlist : [first, second] = before ++ a :: after := hsplit
  have herror : error = .fieldMismatch "title" "body" := by
    rcases before with _ | ⟨b, _ | ⟨c, before⟩⟩
    · obtain ⟨rfl, -⟩ := List.cons.inj hlist
      cases hfirst.symm.trans hfails
    · obtain ⟨-, hlist⟩ := List.cons.inj hlist
      obtain ⟨rfl, -⟩ := List.cons.inj hlist
      exact Except.error.inj (hfails.symm.trans hsecond)
    · simp at hlist
  rw [hresolve, houtcome, herror]

end Session

end ProximityQuery
