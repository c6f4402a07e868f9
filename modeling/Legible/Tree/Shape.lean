import Legible.Tree

namespace Legible

def childTable : List (String × List String) :=
  [("ArrayExpression", ["elements"]),
   ("ArrayPattern", ["elements"]),
   ("ArrowFunctionExpression", ["params", "body"]),
   ("AssignmentExpression", ["left", "right"]),
   ("AssignmentPattern", ["left", "right"]),
   ("AwaitExpression", ["argument"]),
   ("BinaryExpression", ["left", "right"]),
   ("BlockStatement", ["body"]),
   ("BreakStatement", ["label"]),
   ("CallExpression", ["callee", "arguments"]),
   ("CatchClause", ["param", "body"]),
   ("ClassBody", ["body"]),
   ("ClassDeclaration", ["id", "superClass", "body"]),
   ("ClassExpression", ["id", "superClass", "body"]),
   ("ConditionalExpression", ["test", "consequent", "alternate"]),
   ("ContinueStatement", ["label"]),
   ("DebuggerStatement", []),
   ("DoWhileStatement", ["body", "test"]),
   ("EmptyStatement", []),
   ("ExportAllDeclaration", ["source"]),
   ("ExportDefaultDeclaration", ["declaration"]),
   ("ExportNamedDeclaration", ["declaration", "specifiers", "source"]),
   ("ExportSpecifier", ["local", "exported"]),
   ("ExpressionStatement", ["expression"]),
   ("ForInStatement", ["left", "right", "body"]),
   ("ForOfStatement", ["left", "right", "body"]),
   ("ForStatement", ["init", "test", "update", "body"]),
   ("FunctionDeclaration", ["id", "params", "body"]),
   ("FunctionExpression", ["id", "params", "body"]),
   ("Identifier", []),
   ("IfStatement", ["test", "consequent", "alternate"]),
   ("Import", []),
   ("ImportDeclaration", ["specifiers", "source"]),
   ("ImportDefaultSpecifier", ["local"]),
   ("ImportNamespaceSpecifier", ["local"]),
   ("ImportSpecifier", ["imported", "local"]),
   ("LabeledStatement", ["label", "body"]),
   ("Literal", []),
   ("LogicalExpression", ["left", "right"]),
   ("MemberExpression", ["object", "property"]),
   ("MetaProperty", ["meta", "property"]),
   ("MethodDefinition", ["key", "value"]),
   ("NewExpression", ["callee", "arguments"]),
   ("ObjectExpression", ["properties"]),
   ("ObjectPattern", ["properties"]),
   ("Program", ["body"]),
   ("Property", ["key", "value"]),
   ("RestElement", ["argument"]),
   ("ReturnStatement", ["argument"]),
   ("SequenceExpression", ["expressions"]),
   ("SpreadElement", ["argument"]),
   ("Super", []),
   ("SwitchCase", ["test", "consequent"]),
   ("SwitchStatement", ["discriminant", "cases"]),
   ("TaggedTemplateExpression", ["tag", "quasi"]),
   ("TemplateElement", []),
   ("TemplateLiteral", ["quasis", "expressions"]),
   ("ThisExpression", []),
   ("ThrowStatement", ["argument"]),
   ("TryStatement", ["block", "handler", "finalizer"]),
   ("UnaryExpression", ["argument"]),
   ("UpdateExpression", ["argument"]),
   ("VariableDeclaration", ["declarations"]),
   ("VariableDeclarator", ["id", "init"]),
   ("WhileStatement", ["test", "body"]),
   ("WithStatement", ["object", "body"]),
   ("YieldExpression", ["argument"])]

namespace Tree

def holdsNode : Tree → Bool
  | .list ts => ts.any isNode
  | t => t.isNode

end Tree

def Fields.childKeys (fs : Fields) : List String :=
  match ((fs.lookup "type").bind Tree.text?).bind (List.lookup · childTable) with
  | some keys => keys
  | none => (fs.filter fun f => f.2.holdsNode).map (·.1)

def Tree.childKeys (t : Tree) : List String :=
  Fields.childKeys t.fields

end Legible
