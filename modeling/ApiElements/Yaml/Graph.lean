import ApiElements.Yaml.Tag

/-!
This module contains the graphs of nodes that settings files hold: scalars, sequences and mappings
with their tags. An alias refers to a node that stands elsewhere, which may be one around it, so
that nodes are referred to by their places.
-/

namespace ApiElements

namespace Yaml

/--
What a node holds. The nodes in a collection are given by their places.
-/
inductive Content where
  | scalar (text : String)
  | sequence (items : List Nat)
  | mapping (entries : List (Nat × Nat))
deriving DecidableEq

structure Node where
  tag : String
  content : Content
deriving DecidableEq

/--
The nodes of a file in the order in which they begin.
-/
structure Graph where
  nodes : Array Node := #[]

namespace Graph

def size (g : Graph) : Nat := g.nodes.size

/--
The node at a place. A scalar without text is at places that do not exist.
-/
def node (g : Graph) (place : Nat) : Node :=
  g.nodes.getD place ⟨Tag.null, .scalar ""⟩

def tag (g : Graph) (place : Nat) : String := (g.node place).tag

def content (g : Graph) (place : Nat) : Content := (g.node place).content

def push (g : Graph) (node : Node) : Graph := ⟨g.nodes.push node⟩

def setTag (g : Graph) (place : Nat) (tag : String) : Graph :=
  ⟨g.nodes.modify place fun node => { node with tag }⟩

def setContent (g : Graph) (place : Nat) (content : Content) : Graph :=
  ⟨g.nodes.modify place fun node => { node with content }⟩

def entries (g : Graph) (place : Nat) : List (Nat × Nat) :=
  match g.content place with
  | .mapping entries => entries
  | _ => []

end Graph

end Yaml

end ApiElements
