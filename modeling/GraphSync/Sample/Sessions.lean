import GraphSync.Sample.Automata
import GraphSync.Sample.Network
import GraphSync.Session.History

namespace GraphSync.Sample

def networkRules : RuleSet := ⟨networks, by decide, by decide⟩

/-- Two nodes of the net lead to the same third one. -/
def diamond : Graph := (emptyNetwork "diamond").editAll
  [.add "Node", .add "Node", .add "Node", .set ⟨0⟩ "name" (.text "net"),
    .set ⟨1⟩ "name" (.text "a"),
    .set ⟨2⟩ "name" (.text "b"), .push ⟨0⟩ "nodes" ⟨1⟩, .push ⟨0⟩ "nodes" ⟨2⟩,
    .push ⟨1⟩ "next" ⟨3⟩, .push ⟨2⟩ "next" ⟨3⟩]

/-- A session that is to copy the diamond. -/
def copying (d : Direction) : Session :=
  { rules := networkRules
    rootRule := "NetToNet"
    graphs := ⟨diamond, emptyNetwork "copy"⟩
    options := { direction := d } }

/-- Both networks were edited after a pass: on the left a node moved, on the right one was renamed
and one left the net. -/
def edited (d : Direction) : Session := (copying d).performAll
  [.synchronize, .mutate .left [.unlink ⟨0⟩ "nodes" ⟨1⟩, .push ⟨2⟩ "next" ⟨1⟩],
    .mutate .right [.set ⟨3⟩ "name" (.text "c"), .unlink ⟨0⟩ "nodes" ⟨3⟩]]

/-- After a pass a node was added below the third one and a switch below it, for which there is no
rule; of the copies one was renamed, and another one has moved. -/
def halting : Session := (copying (.oneWay .left true)).performAll
  [.synchronize,
    .mutate .left
      [.add "Node", .set ⟨4⟩ "name" (.text "c"), .push ⟨3⟩ "next" ⟨4⟩, .add "Switch",
      .push ⟨4⟩ "next" ⟨5⟩],
    .mutate .right
      [.set ⟨1⟩ "name" (.text "d"), .set ⟨3⟩ "name" (.text "e"),
      .unlink ⟨1⟩ "next" ⟨2⟩, .push ⟨2⟩ "next" ⟨1⟩]]

/-- After a pass the net is named by a NaN. -/
def unnamed (d : Direction) : Session := (copying d).performAll
  [.synchronize, .mutate .left [.set ⟨0⟩ "name" (.float .nan)]]

/-- After a pass a node was deleted, and then another one that it listed. -/
def felled (d : Direction) : Session := (copying d).performAll
  [.synchronize, .mutate .left [.remove ⟨1⟩, .remove ⟨3⟩]]

/-- A session that has copied the diamond and carries over what is edited on the left when it is
flushed. -/
def carrying : Session :=
  Session.performAll
    { rules := networkRules
      rootRule := "NetToNet"
      graphs := ⟨diamond, emptyNetwork "copy"⟩
      options := { propagation := .oneWay .deferred } }
    [.observe .left, .synchronize]

/-- The copy of a node was deleted, and the node taken out of the net afterwards. -/
def pruned : Session :=
  carrying.performAll
    [.mutate .right [.remove ⟨1⟩], .edit .left [.unlink ⟨0⟩ "nodes" ⟨1⟩]]

/-- The copy of a node was deleted, and the node renamed afterwards. -/
def bereft : Session := carrying.performAll
  [.mutate .right [.remove ⟨1⟩],
    .edit .left [.set ⟨1⟩ "name" (.text "c"), .set ⟨0⟩ "name" (.text "web")]]

/-- A node left the net, which was carried over, and is deleted only then. -/
def orphaned : Session := carrying.performAll
  [.edit .left [.unlink ⟨0⟩ "nodes" ⟨1⟩], .flush, .edit .left [.remove ⟨1⟩]]

/-- A node was deleted on either side, and edits of both sides wait. -/
def torn : Session := carrying.performAll
  [.observe .right, .mutate .right [.remove ⟨1⟩, .set ⟨0⟩ "name" (.text "web")],
    .edit .left [.set ⟨1⟩ "name" (.text "c"), .remove ⟨2⟩]]

/-- A node that has no counterpart stands between copies, and lists one; then a node left the net,
and others were deleted. -/
def hosting : Session := carrying.performAll
  [.mutate .right [.add "Node", .insert ⟨0⟩ "nodes" 1 ⟨4⟩, .push ⟨4⟩ "next" ⟨3⟩,
    .push ⟨3⟩ "next" ⟨4⟩, .remove ⟨2⟩],
    .edit .left [.unlink ⟨0⟩ "nodes" ⟨1⟩, .remove ⟨3⟩]]

/-- A node got another one below it, which is new, and came below a third one; its copy was renamed
and lists another copy. -/
def growing : Session := carrying.performAll
  [.mutate .right [.set ⟨1⟩ "name" (.text "d"), .push ⟨1⟩ "next" ⟨3⟩],
    .edit .left
      [.add "Node", .set ⟨4⟩ "name" (.text "c"), .push ⟨1⟩ "next" ⟨4⟩,
        .push ⟨2⟩ "next" ⟨1⟩]]

/-- An item is a box in one role of the top and a bag in the other; from a bag the rules lead up
again. -/
def containerRules : RuleSet where
  rules :=
    [ { name := "top"
        types := ⟨"Top", "Net"⟩
        children :=
          [⟨⟨"x", "x"⟩, ⟨"Item", "Box"⟩⟩, ⟨⟨"y", "y"⟩, ⟨"Item", "Bag"⟩⟩] },
      { name := "box", types := ⟨"Item", "Box"⟩ },
      { name := "bag"
        types := ⟨"Item", "Bag"⟩
        children := [⟨⟨"up", "up"⟩, ⟨"Top", "Net"⟩⟩] } ]
  names_nodup := by decide
  types_nodup := by decide

/-- After a pass the item leads up to the root, which is then met under the root rule. -/
def returning : Session :=
  Session.performAll
    { rules := containerRules
      rootRule := "top"
      graphs :=
        ⟨(Graph.new "left" "Top").editAll [.add "Item", .push ⟨0⟩ "y" ⟨1⟩],
          Graph.new "right" "Net"⟩
      options := { direction := .oneWay .left false } }
    [.synchronize, .mutate .left [.unlink ⟨0⟩ "y" ⟨1⟩, .push ⟨0⟩ "x" ⟨1⟩, .push ⟨1⟩ "up" ⟨0⟩],
      .mutate .right [.push ⟨0⟩ "x" ⟨1⟩]]

/-- The same, in a session that carries edits of the left side over. -/
def climbing : Session :=
  Session.performAll
    { rules := containerRules
      rootRule := "top"
      graphs :=
        ⟨(Graph.new "left" "Top").editAll [.add "Item", .push ⟨0⟩ "y" ⟨1⟩],
          Graph.new "right" "Net"⟩
      options := { direction := .oneWay .left false, propagation := .oneWay .immediate } }
    [.observe .left, .synchronize, .mutate .right [.push ⟨0⟩ "x" ⟨1⟩],
      .mutate .left
        [.unlink ⟨0⟩ "y" ⟨1⟩, .push ⟨0⟩ "x" ⟨1⟩, .push ⟨1⟩ "up" ⟨0⟩]]

/-- Two roles of the top are mirrored into one role of the net. -/
def sharing : Session :=
  { rules :=
      { rules :=
          [ { name := "top"
              types := ⟨"Top", "Net"⟩
              children :=
                [⟨⟨"x", "z"⟩, ⟨"Item", "Box"⟩⟩,
                  ⟨⟨"y", "z"⟩, ⟨"Item", "Box"⟩⟩] },
            { name := "box", types := ⟨"Item", "Box"⟩ } ]
        names_nodup := by decide
        types_nodup := by decide }
    rootRule := "top"
    graphs :=
      ⟨(Graph.new "left" "Top").editAll
        [.add "Item", .add "Item", .push ⟨0⟩ "x" ⟨1⟩, .push ⟨0⟩ "y" ⟨2⟩],
      Graph.new "right" "Net"⟩
    options := {} }

def automataRules : RuleSet := ⟨automataToNets, by decide, by decide⟩

/-- A session that is to keep an automaton of two states, the first one marked, in step with a
net. -/
def mirroring : Session :=
  { rules := automataRules
    rootRule := "AutomataToNet"
    graphs := ⟨(Graph.new "fsm" "FiniteStateMachine").editAll
      [.add "State", .add "State", .set ⟨1⟩ "name" (.text "s1"),
        .set ⟨1⟩ "is_start_state" (.bool true),
        .set ⟨2⟩ "name" (.text "s2"), .push ⟨0⟩ "states" ⟨1⟩,
        .push ⟨0⟩ "states" ⟨2⟩], emptyNet⟩
    options := { direction := .twoWay } }

/-- Both sides were edited after a pass that follows both: the one state was renamed on either side,
and each side has got a new element. -/
def disputed : Session :=
  Session.performAll
    { rules := automataRules
      rootRule := "AutomataToNet"
      graphs := ⟨(Graph.new "fsm" "FiniteStateMachine").editAll
        [.add "State", .set ⟨1⟩ "name" (.text "s"), .push ⟨0⟩ "states" ⟨1⟩], emptyNet⟩
      options := { direction := .twoWay } }
    [.synchronize,
      .mutate .left
        [.set ⟨1⟩ "name" (.text "idle"), .add "State", .push ⟨0⟩ "states" ⟨2⟩],
      .mutate .right
        [.set ⟨1⟩ "name" (.text "busy"), .add "Transition", .push ⟨2⟩ "from" ⟨1⟩,
        .push ⟨0⟩ "transitions" ⟨2⟩]]

end GraphSync.Sample
