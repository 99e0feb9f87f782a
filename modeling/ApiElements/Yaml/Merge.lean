import ApiElements.Yaml.Graph
import ApiElements.Yaml.Source

/-!
This module contains the merging of mappings into each other: a merge key in a mapping stands for the
entries of another one, or of several.
-/

namespace ApiElements

namespace Yaml

namespace Graph

def isMerge (g : Graph) (key : Nat) : Bool := g.tag key = Tag.merge

def mergeCount (g : Graph) : Nat :=
  (List.range g.size).foldl (fun n place =>
    n + ((g.entries place).filter fun entry => g.isMerge entry.1).length) 0

/--
Makes ordinary texts of those among some keys that stand for the value of their mapping.
-/
def plainKeys (g : Graph) (keys : List Nat) : Graph :=
  keys.foldl (fun g key => if g.tag key = Tag.value then g.setTag key Tag.str else g) g

/--
Merges into a mapping what its merge keys ask for, from its entry number `index` on. What was merged
before is `found`. Merged entries stand before those of the mapping itself, which count more, and of
several mappings that are merged at once the first one counts most. Every merge key is taken out
before the mappings that it names are merged themselves, so that there are no more steps than
merge keys, also where a mapping is merged into itself.
-/
def mergeFrom : (fuel place index : Nat) → (found : List (Nat × Nat)) → Graph →
    Except Fault Graph
  | 0, _, _, _, _ => fail
  | fuel + 1, place, index, found, g =>
    let entries := g.entries place
    let passed := (entries.drop index).takeWhile fun entry => !g.isMerge entry.1
    let g := g.plainKeys (passed.map (·.1))
    let index := index + passed.length
    match entries.drop index with
    | [] =>
      .ok (if found.isEmpty then g else g.setContent place (.mapping (found ++ entries)))
    | (_, value) :: rest => do
      -- Taken out first: the mapping may be among those that it asks for.
      let g := g.setContent place (.mapping (entries.take index ++ rest))
      let (more, g) ← match g.content value with
        | .mapping _ => do
          let g ← mergeFrom fuel value 0 [] g
          .ok (g.entries value, g)
        | .sequence items => do
          let (parts, g) ← items.foldlM (fun (parts, g) item =>
            match g.content item with
            | .mapping _ => do
              let g ← mergeFrom fuel item 0 [] g
              -- In front, as the last entry of a key counts, and that is to be the first mapping's.
              .ok (g.entries item :: parts, g)
            | _ => fail) (([] : List (List (Nat × Nat))), g)
          .ok (parts.flatten, g)
        | .scalar _ => fail
      mergeFrom fuel place index (found ++ more) g

def merge (g : Graph) (place : Nat) : Except Fault Graph :=
  g.mergeFrom (g.mergeCount + 1) place 0 []

end Graph

end Yaml

end ApiElements
