import SiteBundle.Markup.Position
import SiteBundle.Recipe

/-!
# The fields of the options

Every option is a field with a key and a kind of value.  Two more options, the overrides for
documents and for handled files, hold options themselves; they are added in the next file.

* `Field`, `Field.all`   the fields, in the order they are written in;
* `Field.key`            the name of a field;
* `Field.kind`           what its value is;
* `Kind.Value`           the type of the values of a kind.
-/

namespace SiteBundle

/-- what happens to an element whose file is missing -/
inductive MissingAction where
  | keep
  | remove
deriving DecidableEq, Repr

/-- what happens to source files of scripts and stylesheets once the markup is processed -/
inductive FileAction where
  | removeAll
  | removeBundled
  | keepAll
  | keepNecessary
deriving DecidableEq, Repr

/-- which files are transformed on their own -/
inductive Selection where
  | nothing
  | necessary
  | everything
  | matching (patterns : List Text)
deriving DecidableEq, Repr

/-- the kinds of option values -/
inductive Kind where
  | path
  | switch
  | target
  | position
  | missingAction
  | fileAction
  | selection
  | text
  | patterns
deriving DecidableEq, Repr

@[reducible] def Kind.Value : Kind → Type
  | .path => Text
  | .switch => Bool
  | .target => Target
  | .position => Position
  | .missingAction => MissingAction
  | .fileAction => FileAction
  | .selection => Selection
  | .text => Text
  | .patterns => List Text

/-- the options that hold plain values -/
inductive Field where
  | src
  | dist
  | verbose
  | bundleScript
  | minifyScript
  | iifeScript
  | transpileScript
  | handleInlineScript
  | injectScript
  | sanitizeInjectedScript
  | scriptInsertPosition
  | missingScriptFileTagAction
  | scriptFileAction
  | handledScriptFiles
  | handledModuleFiles
  | bundleCss
  | minifyCss
  | optimizeCss
  | autoprefixCss
  | handleInlineCss
  | injectCss
  | sanitizeInjectedCss
  | cssInsertPosition
  | missingCssFileTagAction
  | cssFileAction
  | handledCssFiles
  | minifyMarkup
  | insertPolyfill
  | polyfillUrl
  | removeEmptyDirectories
  | keep
  | ignore
  | ignoreGit
  | ignoreDsStore
  | randomBundleNames
  | bundleDirectory
deriving DecidableEq, Repr

namespace Field

def all : List Field :=
  [.src, .dist, .verbose,
    .bundleScript, .minifyScript, .iifeScript, .transpileScript, .handleInlineScript,
    .injectScript, .sanitizeInjectedScript, .scriptInsertPosition, .missingScriptFileTagAction,
    .scriptFileAction, .handledScriptFiles, .handledModuleFiles,
    .bundleCss, .minifyCss, .optimizeCss, .autoprefixCss, .handleInlineCss,
    .injectCss, .sanitizeInjectedCss, .cssInsertPosition, .missingCssFileTagAction,
    .cssFileAction, .handledCssFiles,
    .minifyMarkup, .insertPolyfill, .polyfillUrl,
    .removeEmptyDirectories, .keep, .ignore, .ignoreGit, .ignoreDsStore,
    .randomBundleNames, .bundleDirectory]

theorem mem_all (f : Field) : f ∈ all := by
  cases f <;> decide

def key : Field → Text
  | .src => "src".toList
  | .dist => "dist".toList
  | .verbose => "verbose".toList
  | .bundleScript => "bundle_script".toList
  | .minifyScript => "minify_script".toList
  | .iifeScript => "iife_script".toList
  | .transpileScript => "transpile_script".toList
  | .handleInlineScript => "handle_inline_script".toList
  | .injectScript => "inject_script".toList
  | .sanitizeInjectedScript => "sanitize_injected_script".toList
  | .scriptInsertPosition => "script_insert_position".toList
  | .missingScriptFileTagAction => "missing_script_file_tag_action".toList
  | .scriptFileAction => "script_file_action".toList
  | .handledScriptFiles => "handled_script_files".toList
  | .handledModuleFiles => "handled_module_files".toList
  | .bundleCss => "bundle_css".toList
  | .minifyCss => "minify_css".toList
  | .optimizeCss => "optimize_css".toList
  | .autoprefixCss => "autoprefix_css".toList
  | .handleInlineCss => "handle_inline_css".toList
  | .injectCss => "inject_css".toList
  | .sanitizeInjectedCss => "sanitize_injected_css".toList
  | .cssInsertPosition => "css_insert_position".toList
  | .missingCssFileTagAction => "missing_css_file_tag_action".toList
  | .cssFileAction => "css_file_action".toList
  | .handledCssFiles => "handled_css_files".toList
  | .minifyMarkup => "minify_markup".toList
  | .insertPolyfill => "insert_polyfill".toList
  | .polyfillUrl => "polyfill_url".toList
  | .removeEmptyDirectories => "remove_empty_directories".toList
  | .keep => "keep".toList
  | .ignore => "ignore".toList
  | .ignoreGit => "ignore_git".toList
  | .ignoreDsStore => "ignore_ds_store".toList
  | .randomBundleNames => "random_bundle_names".toList
  | .bundleDirectory => "bundle_directory".toList

@[reducible] def kind : Field → Kind
  | .src => .path
  | .dist => .path
  | .transpileScript => .target
  | .scriptInsertPosition => .position
  | .cssInsertPosition => .position
  | .missingScriptFileTagAction => .missingAction
  | .missingCssFileTagAction => .missingAction
  | .scriptFileAction => .fileAction
  | .cssFileAction => .fileAction
  | .handledScriptFiles => .selection
  | .handledModuleFiles => .selection
  | .handledCssFiles => .selection
  | .polyfillUrl => .text
  | .bundleDirectory => .text
  | .keep => .patterns
  | .ignore => .patterns
  | _ => .switch

@[reducible] def Value (f : Field) : Type := f.kind.Value

/-- the value of a field that nothing sets -/
def initial : (f : Field) → f.Value
  | .src => "src".toList
  | .dist => "dist".toList
  | .verbose => false
  | .bundleScript => true
  | .minifyScript => true
  | .iifeScript => true
  | .transpileScript => Target.off
  | .handleInlineScript => true
  | .injectScript => false
  | .sanitizeInjectedScript => true
  | .scriptInsertPosition => Position.anchored ⟨.body, .stop⟩
  | .missingScriptFileTagAction => MissingAction.keep
  | .scriptFileAction => FileAction.removeBundled
  | .handledScriptFiles => Selection.matching []
  | .handledModuleFiles => Selection.matching []
  | .bundleCss => true
  | .minifyCss => true
  | .optimizeCss => false
  | .autoprefixCss => false
  | .handleInlineCss => true
  | .injectCss => false
  | .sanitizeInjectedCss => true
  | .cssInsertPosition => Position.anchored ⟨.head, .stop⟩
  | .missingCssFileTagAction => MissingAction.keep
  | .cssFileAction => FileAction.removeBundled
  | .handledCssFiles => Selection.matching []
  | .minifyMarkup => true
  | .insertPolyfill => false
  | .polyfillUrl => "https://cdnjs.cloudflare.com/polyfill/v3/polyfill.min.js".toList
  | .removeEmptyDirectories => true
  | .keep => []
  | .ignore => []
  | .ignoreGit => true
  | .ignoreDsStore => true
  | .randomBundleNames => true
  | .bundleDirectory => "bundles".toList

end Field
end SiteBundle
