namespace FlowMerge

/-- Why a document, a path, a configuration or an edit script is refused. -/
inductive Error where
  | parse (reason : String)
  | notApplicable (reason : String)
  | invalidPath (text : String)
  | unknownAlgorithm (name : String)
  | invalidThreshold (name value : String)
  | xml
deriving Repr, DecidableEq

namespace Error

def message : Error → String
  | parse reason => "XML parse error: " ++ reason
  | notApplicable reason => "edit script not applicable to tree: " ++ reason
  | invalidPath text => "invalid node path: " ++ text
  | unknownAlgorithm name => "unknown matching algorithm: " ++ name
  | invalidThreshold name value =>
    "invalid " ++ name ++ " threshold " ++ value ++ ": expected a value in [0, 1]"
  | xml => "XML error"

end Error

end FlowMerge
