import StackScript.Catalog.Basic
import StackScript.Names

namespace StackScript.Catalog.Seed

def member (kind : MemberKind) (owner name : String) (args : List String) (ret : String) : Member :=
  ⟨kind, owner, name, args, if ret = Ty.voidName then none else some ret,
    Names.symbol owner name args ret⟩

def static (owner name : String) (args : List String) (ret : String) : Member :=
  member .static owner name args ret

def method (owner name : String) (args : List String) (ret : String) : Member :=
  member .method owner name args ret

def typeNames : List String :=
  ["SystemInt32", "SystemUInt32", "SystemInt64", "SystemSingle", "SystemDouble", "SystemString",
    "SystemBoolean", "SystemObject", "SystemInt32Array", "SystemSingleArray", "SystemBooleanArray",
    "SystemStringArray", "UnityEngineGameObject", "UnityEngineGameObjectArray",
    "UnityEngineTransform", "UnityEngineComponent", "UnityEngineRenderer", "UnityEngineMaterial",
    "UnityEngineVector3", "UnityEngineQuaternion", "UnityEngineColor", "UnityEngineCollider",
    "UnityEngineCollision", "VRCSDKBaseVRCPlayerApi"]

def types : List (String × String) :=
  typeNames.map (fun t => (t, t)) ++
    [("VRCUdonCommonInterfacesIUdonEventReceiver", "VRCUdonUdonBehaviour")]

def numeric (ty : String) (arithmetic : List String) : List Member :=
  arithmetic.map (static ty · [ty, ty] ty) ++
    ["op_Equality", "op_Inequality", "op_LessThan", "op_GreaterThan", "op_LessThanOrEqual",
      "op_GreaterThanOrEqual"].map (static ty · [ty, ty] "SystemBoolean") ++
    [static ty "op_UnaryMinus" [ty] ty]

def equality (ty : String) : List Member :=
  ["op_Equality", "op_Inequality"].map (static ty · [ty, ty] "SystemBoolean")

def array (elem : String) : List Member :=
  let arr := elem ++ "Array"
  [member .ctor arr "ctor" ["SystemInt32"] arr,
    method arr "Get" ["SystemInt32"] elem,
    method arr "Set" ["SystemInt32", elem] "SystemVoid"]

def concatenation : Member :=
  { static "SystemString" "op_Addition" ["SystemString", "SystemString"] "SystemString" with
    symbol := Names.symbol "SystemString" "Concat" ["SystemString", "SystemString"] "SystemString" }

def members : List Member :=
  numeric "SystemInt32"
    ["op_Addition", "op_Subtraction", "op_Multiplication", "op_Division", "op_Modulus"] ++
  numeric "SystemSingle" ["op_Addition", "op_Subtraction", "op_Multiplication", "op_Division"] ++
  ["SystemBoolean", "SystemString", "SystemObject"].flatMap equality ++
  [static "SystemBoolean" "op_LogicalAnd" ["SystemBoolean", "SystemBoolean"] "SystemBoolean",
    static "SystemBoolean" "op_LogicalOr" ["SystemBoolean", "SystemBoolean"] "SystemBoolean",
    static "SystemBoolean" "op_UnaryNegation" ["SystemBoolean"] "SystemBoolean",
    static "SystemBoolean" "Parse" ["SystemString"] "SystemBoolean",
    concatenation,
    static "SystemConvert" "ToString" ["SystemInt32"] "SystemString",
    static "SystemConvert" "ToString" ["SystemSingle"] "SystemString",
    static "SystemConvert" "ToSingle" ["SystemInt32"] "SystemSingle",
    static "SystemConvert" "ToInt32" ["SystemSingle"] "SystemInt32",
    static "UnityEngineDebug" "Log" ["SystemObject"] "SystemVoid",
    static "UnityEngineRandom" "Range" ["SystemInt32", "SystemInt32"] "SystemInt32",
    static "UnityEngineRandom" "Range" ["SystemSingle", "SystemSingle"] "SystemSingle",
    static "UnityEngineRandom" "ColorHSV" [] "UnityEngineColor",
    static "VRCInstantiate" "Instantiate" ["UnityEngineGameObject"] "UnityEngineGameObject",
    static "UnityEngineGameObject" "Find" ["SystemString"] "UnityEngineGameObject",
    method "UnityEngineGameObject" "GetComponent" ["SystemString"] "UnityEngineComponent",
    method "UnityEngineGameObject" "SetActive" ["SystemBoolean"] "SystemVoid",
    method "UnityEngineGameObject" "get_transform" [] "UnityEngineTransform",
    method "UnityEngineTransform" "get_position" [] "UnityEngineVector3",
    method "UnityEngineTransform" "set_position" ["UnityEngineVector3"] "SystemVoid",
    method "UnityEngineTransform" "Rotate" ["SystemSingle", "SystemSingle", "SystemSingle"]
      "SystemVoid",
    method "UnityEngineRenderer" "get_material" [] "UnityEngineMaterial",
    method "UnityEngineMaterial" "get_color" [] "UnityEngineColor",
    method "UnityEngineMaterial" "set_color" ["UnityEngineColor"] "SystemVoid",
    method "UnityEngineColor" "Equals" ["UnityEngineColor"] "SystemBoolean",
    member .ctor "UnityEngineVector3" "ctor" ["SystemSingle", "SystemSingle", "SystemSingle"]
      "UnityEngineVector3",
    member .ctor "UnityEngineColor" "ctor" ["SystemSingle", "SystemSingle", "SystemSingle"]
      "UnityEngineColor"] ++
  ["SystemInt32", "SystemSingle", "SystemBoolean", "SystemString",
    "UnityEngineGameObject"].flatMap array

def events : List (String × List Slot) :=
  ["_start", "_update", "_lateUpdate", "_fixedUpdate", "_interact", "_onEnable", "_onDisable",
    "_onMouseDown"].map (·, []) ++
  [("_onTriggerEnter", [⟨"UnityEngineCollider", "onTriggerEnterOther"⟩]),
    ("_onTriggerExit", [⟨"UnityEngineCollider", "onTriggerExitOther"⟩]),
    ("_onCollisionEnter", [⟨"UnityEngineCollision", "onCollisionEnterOther"⟩]),
    ("_onPlayerJoined", [⟨"VRCSDKBaseVRCPlayerApi", "onPlayerJoinedPlayer"⟩]),
    ("_onPlayerLeft", [⟨"VRCSDKBaseVRCPlayerApi", "onPlayerLeftPlayer"⟩])]

end StackScript.Catalog.Seed

def StackScript.Catalog.builtin : StackScript.Catalog :=
  .merge .empty ⟨Seed.types, Seed.members, Seed.events⟩
