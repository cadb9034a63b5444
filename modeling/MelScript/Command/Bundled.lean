import MelScript.Command.Table

/-! # The bundled command table

  The commands that are documented without any file.
-/

namespace MelScript.CommandTable

/-- A record from its trigger and its documentation. -/
def command (trigger documentation : String) : Command := ⟨trigger.toList, documentation.toList⟩

/-- The table that is used unless another one is asked for. -/
def bundled : CommandTable := ⟨[
  command "addAttr"
    "Add a new attribute to a node.\nSupports numeric, string and compound attribute types.",
  command "connectAttr"
    "Connect two dependency node attributes.\nThe source attribute drives the destination.",
  command "createNode" "Create a new dependency node of the given type.",
  command "currentTime" "Query or set the current animation time.",
  command "delete" "Delete the given objects, or the active selection when none are given.",
  command "disconnectAttr" "Break the connection between two attributes.",
  command "duplicate" "Duplicate objects, optionally with their input graph.",
  command "error" "Print an error message and abort the current script.",
  command "eval" "Evaluate a string as a MEL command and return its result.",
  command "file" "Open, save, import, export and reference scene files.",
  command "getAttr" "Return the value of a node attribute.",
  command "group" "Group objects under a new transform node.",
  command "joint" "Create or edit skeleton joints.",
  command "listConnections" "List the nodes connected to the given objects or attributes.",
  command "listRelatives" "List parents, children or shapes of DAG objects.",
  command "ls"
    "List objects in the scene.\nFlags filter by type, selection state and name pattern.",
  command "move" "Translate objects by an absolute or relative amount.",
  command "nodeType" "Return the type name of a node.",
  command "objExists" "Return true if an object with the given name exists.",
  command "optionVar" "Create, query and edit persistent option variables.",
  command "parent" "Reparent DAG objects under a new parent or the world.",
  command "playbackOptions" "Query or edit the playback range and options.",
  command "polyCube" "Create a new polygonal cube.",
  command "polySphere" "Create a new polygonal sphere.",
  command "print" "Print a value to the script editor.",
  command "rename" "Rename a node.",
  command "rotate" "Rotate objects by an absolute or relative amount.",
  command "scale" "Scale objects by an absolute or relative amount.",
  command "select"
    ("Change the active selection list.\n" ++
      "Use -add, -deselect or -toggle to modify the existing selection."),
  command "setAttr" "Set the value of a node attribute.",
  command "size" "Return the number of elements in an array or characters in a string.",
  command "spaceLocator" "Create a locator in world space.",
  command "sphere" "Create a NURBS sphere.",
  command "warning" "Print a warning message to the script editor.",
  command "xform" "Query or edit transform attributes such as translation, rotation and pivots."]⟩

end MelScript.CommandTable
